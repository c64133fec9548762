import Safeos.Chain.ResourceLimits

/-!
# Billing a transaction (`chain/transaction_context.cpp`)

At the end of a transaction `finalize` lowers the NET limit and the CPU duration limit of the
transaction to what its billed accounts can pay (`max_bandwidth_billed_accounts_can_pay`, the
`available` part of each account's limit), rounds the NET usage up to a word, checks the NET
usage and the CPU time against the limits (`check_net_usage`, `validate_cpu_usage_to_bill`), and
bills the accounts (`add_transaction_usage`, whose comment in the source reads "Should never
fail").

Only the resource half of `finalize` is modelled: the RAM and permission-usage updates before it
read nothing the billing reads. The CPU time to bill is a field, as `update_billed_cpu_time`
leaves it when the time is given explicitly; the wall-clock timer is not modelled. What the
controller answers (`skip_trx_checks`, block production, the greylist, the configuration, the
slot of the pending block) is a `Control` record.
-/

namespace Safeos
namespace TransactionContext

open ResourceLimits

/-- The exception code the billing timer reports (`billing_timer_exception_code`). -/
inductive BillingTimerExceptionCode
  | blockCpuUsageExceeded
  | txCpuUsageExceeded
  | leewayDeadlineException
deriving DecidableEq, Repr

/-- What `finalize` asks the controller. -/
structure Control where
  skipTrxChecks : Bool
  isProducingBlock : Bool
  isResourceGreylisted : Name → Bool
  minTransactionCpuUsage : UInt32
  pendingBlockSlot : UInt32

/-- The fields of a `transaction_context` that billing reads and writes. -/
structure Context where
  billToAccounts : List Name
  netLimit : UInt64
  netLimitDueToBlock : Bool := true
  netLimitDueToGreylist : Bool := false
  cpuLimitDueToGreylist : Bool := false
  objectiveDurationLimit : Int
  billingTimerExceptionCode : BillingTimerExceptionCode := .blockCpuUsageExceeded
  eagerNetLimit : UInt64
  netUsage : UInt64 := 0
  billedCpuTimeUs : Int := 0
deriving DecidableEq

/-- `large_number_no_overflow`. -/
def largeNumberNoOverflow : Int := (int64Max / 2 : Nat)

/-- `max_bandwidth_billed_accounts_can_pay`: the least NET and CPU left to a billed account with
a limit, and whether a greylisted account set it. -/
def maxBandwidthBilledAccountsCanPay (c : Control) (rl : State) (t : Context)
    (forceElasticLimits : Bool := false) : Except String (Int × Int × Bool × Bool) :=
  t.billToAccounts.foldlM (fun (accountNetLimit, accountCpuLimit, greylistedNet, greylistedCpu) a => do
    let elastic := forceElasticLimits || !(c.isProducingBlock && c.isResourceGreylisted a)
    let netLimit ← rl.getAccountNetLimit a elastic
    let (accountNetLimit, greylistedNet) :=
      if netLimit ≥ 0 then (min accountNetLimit netLimit, greylistedNet || !elastic)
      else (accountNetLimit, greylistedNet)
    let cpuLimit ← rl.getAccountCpuLimit a elastic
    let (accountCpuLimit, greylistedCpu) :=
      if cpuLimit ≥ 0 then (min accountCpuLimit cpuLimit, greylistedCpu || !elastic)
      else (accountCpuLimit, greylistedCpu)
    pure (accountNetLimit, accountCpuLimit, greylistedNet, greylistedCpu))
    (largeNumberNoOverflow, largeNumberNoOverflow, false, false)

/-- `check_net_usage`. -/
def checkNetUsage (c : Control) (t : Context) : Except String Unit :=
  if !c.skipTrxChecks && t.netUsage > t.eagerNetLimit then
    if t.netLimitDueToBlock then .error "not enough space left in block: ${net_usage} > ${net_limit}"
    else if t.netLimitDueToGreylist then
      .error "greylisted transaction net usage is too high: ${net_usage} > ${net_limit}"
    else .error "transaction net usage is too high: ${net_usage} > ${net_limit}"
  else .ok ()

/-- `validate_cpu_usage_to_bill`. -/
def validateCpuUsageToBill (c : Control) (t : Context) (billedUs : Int) (checkMinimum : Bool := true) :
    Except String Unit := do
  if !c.skipTrxChecks then
    if checkMinimum then
      eosioAssert (billedUs ≥ c.minTransactionCpuUsage.toNat)
        "cannot bill CPU time less than the minimum of ${min_billable} us"
    if t.billingTimerExceptionCode = .blockCpuUsageExceeded then
      eosioAssert (billedUs ≤ t.objectiveDurationLimit)
        "billed CPU time (${billed} us) is greater than the billable CPU time left in the block (${billable} us)"
    else if t.cpuLimitDueToGreylist then
      eosioAssert (billedUs ≤ t.objectiveDurationLimit)
        "billed CPU time (${billed} us) is greater than the maximum greylisted billable CPU time for the transaction (${billable} us)"
    else
      eosioAssert (billedUs ≤ t.objectiveDurationLimit)
        "billed CPU time (${billed} us) is greater than the maximum billable CPU time for the transaction (${billable} us)"

/-- The part of `finalize` before its checks: the limits lowered to what the billed accounts can
pay, and the NET usage rounded up to a word. -/
def lowerLimitsToBilledAccounts (c : Control) (rl : State) (t : Context) : Except String Context := do
  let (accountNetLimit, accountCpuLimit, greylistedNet, greylistedCpu) ←
    maxBandwidthBilledAccountsCanPay c rl t
  let t := { t with
    netLimitDueToGreylist := t.netLimitDueToGreylist || greylistedNet
    cpuLimitDueToGreylist := t.cpuLimitDueToGreylist || greylistedCpu }
  -- possibly lower net_limit to what the billed accounts can pay
  let t := if UInt64.ofInt accountNetLimit ≤ t.netLimit then
      { t with netLimit := UInt64.ofInt accountNetLimit, netLimitDueToBlock := false }
    else t
  -- possibly lower objective_duration_limit to what the billed accounts can pay
  let t := if accountCpuLimit ≤ t.objectiveDurationLimit then
      { t with
        objectiveDurationLimit := accountCpuLimit
        billingTimerExceptionCode := .txCpuUsageExceeded }
    else t
  let t := { t with netUsage := (t.netUsage + 7) / 8 * 8 }
  pure { t with eagerNetLimit := t.netLimit }

/-- The resource half of `finalize`. -/
def finalize (c : Control) (rl : State) (t : Context) : Except String (Context × State) := do
  let t ← lowerLimitsToBilledAccounts c rl t
  checkNetUsage c t
  validateCpuUsageToBill c t t.billedCpuTimeUs
  let rl ← rl.addTransactionUsage t.billToAccounts (UInt64.ofInt t.billedCpuTimeUs) t.netUsage
    c.pendingBlockSlot
  pure (t, rl)

/-! ### An account over its NET limit

An account that used more than its share of the window has `available = 0`: the billed accounts
can pay no NET, and `finalize` lowers the NET limit to `0`. A deferred transaction was charged its
NET when it was scheduled and uses none now, so `check_net_usage` (`0 > 0`) and the CPU checks
pass; `add_transaction_usage` then checks the account's usage, still over its share, and
throws. -/

/-- The only account with a NET weight, whose NET average (2 MB a day, in
`rate_limiting_precision` units) is twice the share its weight gives it at the smallest virtual
limit; its CPU is unlimited. -/
def overLimitState : State :=
  { State.initializeDatabase with
    limits := (∅ : AList fun _ : Bool × Name => Limits).insert (false, ⟨1⟩) ⟨1, -1, -1⟩
    usage := (∅ : AList fun _ : Name => Usage).insert ⟨1⟩ { netUsage := ⟨0, 2000000000000, 0⟩ }
    totalNetWeight := 1 }

def overLimitControl : Control where
  skipTrxChecks := false
  isProducingBlock := false
  isResourceGreylisted _ := false
  minTransactionCpuUsage := 100
  pendingBlockSlot := 0

/-- A deferred transaction authorized by that account, billed the minimum CPU time. -/
def deferredContext : Context where
  billToAccounts := [⟨1⟩]
  netLimit := 524288
  objectiveDurationLimit := 150000
  billingTimerExceptionCode := .txCpuUsageExceeded
  eagerNetLimit := 524288
  billedCpuTimeUs := 100

theorem finalize_over_limit_throws :
    ∃ t, lowerLimitsToBilledAccounts overLimitControl overLimitState deferredContext = .ok t ∧
      checkNetUsage overLimitControl t = .ok () ∧
      validateCpuUsageToBill overLimitControl t t.billedCpuTimeUs = .ok () ∧
      finalize overLimitControl overLimitState deferredContext =
        .error "authorizing account '${n}' has insufficient net resources for this transaction" :=
  ⟨_, rfl, rfl, rfl, rfl⟩

end TransactionContext
end Safeos
