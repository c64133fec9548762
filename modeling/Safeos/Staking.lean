import Safeos.Token

/-!
# Staking in the system contract (`contracts/eosio.system/delegate_bandwidth.cpp`)

`delegatebw` and `undelegatebw` move stake through `changebw`, which writes four tables of the
system contract: `delband` (scope `from`, one row per receiver: what `from` staked to it),
`userres` (the weights a receiver holds in total), `refunds` (unstaked tokens waiting to be
paid back to their owner) and `voters` (each staker's voting stake). Tokens reach
`eosio.stake` through an inline `eosio.token` transfer; `refund` pays a request out of it once
`refund_delay` has passed.

`changebw` also calls the chain (`set_resource_limits`), recounts votes (`update_votes`),
checks the vesting of `b1` and schedules a deferred `refund`. None of these writes a table
modelled here: the vesting check can only abort the action, and the deferred transaction is a
`refund` action of its own.
-/

namespace Safeos
namespace System

open Token (requireAuth getRow)

/-- `asset(0)` and `asset()`: zero in the core symbol. -/
def asset0 : Asset := ⟨0, coreSymbol⟩

@[simp] theorem asset0_amount : asset0.amount = 0 := rfl
@[simp] theorem asset0_symbol : asset0.symbol = coreSymbol := rfl

/-- `N(eosio.stake)`, the account that holds staked tokens. -/
def eosioStake : Name := stringToName "eosio.stake".toList

/-- `refund_delay`, three days in seconds. -/
def refundDelay : UInt32 := 3 * 24 * 3600

/-- `min_activated_stake`, 150 million tokens of four decimals. -/
def minActivatedStake : Int := 150000000 * 10000

/-- `delegated_bandwidth`, a row of `delband`. -/
structure DelegatedBandwidth where
  «from» : Name
  «to» : Name
  netWeight : Asset
  cpuWeight : Asset
deriving DecidableEq, Repr

/-- `user_resources`, a row of `userres`. -/
structure UserResources where
  owner : Name
  netWeight : Asset
  cpuWeight : Asset
  ramBytes : Int
deriving DecidableEq, Repr

/-- `refund_request`, a row of `refunds`. -/
structure RefundRequest where
  owner : Name
  requestTime : UInt32
  netAmount : Asset
  cpuAmount : Asset
deriving DecidableEq, Repr

/-- `voter_info`, with the field the staking actions write. -/
structure VoterInfo where
  owner : Name
  staked : Int
deriving DecidableEq, Repr

/-- The token tables and the staking tables. `delband` is keyed by its scope `from` and the
receiver, the others by their owner. -/
structure State where
  token : Token.State
  delband : AList (fun _ : Name × Name => DelegatedBandwidth)
  userres : AList (fun _ : Name => UserResources)
  refunds : AList (fun _ : Name => RefundRequest)
  voters : AList (fun _ : Name => VoterInfo)

/-- The first block of `changebw`: the row of `from` for `receiver` gains the deltas, is
created if missing, and is erased when both weights are zero. -/
def updateDelband (t : AList (fun _ : Name × Name => DelegatedBandwidth)) («from» receiver : Name)
    (stakeNetDelta stakeCpuDelta : Asset) :
    Except String (AList (fun _ : Name × Name => DelegatedBandwidth)) := do
  let dbo ← (match t.lookup («from», receiver) with
    | none => pure { «from», «to» := receiver, netWeight := stakeNetDelta, cpuWeight := stakeCpuDelta }
    | some dbo => do
      let netWeight ← dbo.netWeight.addAssign stakeNetDelta
      let cpuWeight ← dbo.cpuWeight.addAssign stakeCpuDelta
      pure { dbo with netWeight, cpuWeight })
  eosioAssert (← asset0.le dbo.netWeight) "insufficient staked net bandwidth"
  eosioAssert (← asset0.le dbo.cpuWeight) "insufficient staked cpu bandwidth"
  if ← dbo.netWeight.eq asset0 <&&> dbo.cpuWeight.eq asset0 then
    pure (t.erase («from», receiver))
  else
    pure (t.insert («from», receiver) dbo)

/-- The second block of `changebw`: the totals of `receiver` gain the deltas; the row is
created if missing and erased when both weights and its RAM are zero. -/
def updateTotals (t : AList (fun _ : Name => UserResources)) (receiver : Name)
    (stakeNetDelta stakeCpuDelta : Asset) : Except String (AList (fun _ : Name => UserResources)) := do
  let tot ← (match t.lookup receiver with
    | none => pure {
        owner := receiver, netWeight := stakeNetDelta, cpuWeight := stakeCpuDelta, ramBytes := 0 }
    | some tot => do
      let netWeight ← tot.netWeight.addAssign stakeNetDelta
      let cpuWeight ← tot.cpuWeight.addAssign stakeCpuDelta
      pure { tot with netWeight, cpuWeight })
  eosioAssert (← asset0.le tot.netWeight) "insufficient staked total net bandwidth"
  eosioAssert (← asset0.le tot.cpuWeight) "insufficient staked total cpu bandwidth"
  if ← tot.netWeight.eq asset0 <&&> tot.cpuWeight.eq asset0 <&&> pure (tot.ramBytes == 0) then
    pure (t.erase receiver)
  else
    pure (t.insert receiver tot)

/-- `r.net_amount -= net_balance` and the branch after it: an existing request absorbs the
balance, and what it cannot absorb comes back as the new balance. Returns the request's new
amount and the new balance. -/
def settleRefund (amount balance : Asset) : Except String (Asset × Asset) := do
  let amount ← amount.subAssign balance
  if ← amount.lt asset0 then pure (asset0, amount.neg) else pure (amount, asset0)

/-- The `emplace` of a new request: a negative balance becomes the request's amount and the
balance zero; otherwise the amount keeps its default `asset()`. -/
def openRefund (balance : Asset) : Except String (Asset × Asset) := do
  if ← balance.lt asset0 then pure (balance.neg, asset0) else pure (asset0, balance)

/-- The refund block of `changebw`: when unstaking, or staking to oneself, the deltas are
netted against the refund request of `from`. Returns the table and the balances left to be
paid into `eosio.stake`. -/
def updateRefunds (now : UInt32) (t : AList (fun _ : Name => RefundRequest)) («from» receiver : Name)
    (transfer : Bool) (stakeNetDelta stakeCpuDelta : Asset) :
    Except String (AList (fun _ : Name => RefundRequest) × Asset × Asset) := do
  let netBalance := stakeNetDelta
  let cpuBalance := stakeCpuDelta
  let isUndelegating := int64 (netBalance.amount + cpuBalance.amount) < 0
  let isDelegatingToSelf := !transfer && «from» == receiver
  if isDelegatingToSelf || isUndelegating then
    match t.lookup «from» with
    | some req => do
      let unstaking ← netBalance.lt asset0 <||> cpuBalance.lt asset0
      let requestTime := if unstaking then now else req.requestTime
      let (netAmount, netBalance) ← settleRefund req.netAmount netBalance
      let (cpuAmount, cpuBalance) ← settleRefund req.cpuAmount cpuBalance
      let req := { req with requestTime, netAmount, cpuAmount }
      eosioAssert (← asset0.le req.netAmount) "negative net refund amount"
      eosioAssert (← asset0.le req.cpuAmount) "negative cpu refund amount"
      if ← req.netAmount.eq asset0 <&&> req.cpuAmount.eq asset0 then
        pure (t.erase «from», netBalance, cpuBalance)
      else
        pure (t.insert «from» req, netBalance, cpuBalance)
    | none => do
      if ← netBalance.lt asset0 <||> cpuBalance.lt asset0 then
        let (netAmount, netBalance) ← openRefund netBalance
        let (cpuAmount, cpuBalance) ← openRefund cpuBalance
        pure (t.insert «from» { owner := «from», requestTime := now, netAmount, cpuAmount },
          netBalance, cpuBalance)
      else
        pure (t, netBalance, cpuBalance)
  else
    pure (t, netBalance, cpuBalance)

/-- The voting block of `changebw`: the stake of `from` changes by the sum of the deltas, added
as raw `int64_t`, and may not become negative. -/
def updateVoter (t : AList (fun _ : Name => VoterInfo)) («from» : Name)
    (stakeNetDelta stakeCpuDelta : Asset) : Except String (AList (fun _ : Name => VoterInfo)) := do
  let totalUpdate ← stakeNetDelta.addAssign stakeCpuDelta
  let fromVoter : VoterInfo := match t.lookup «from» with
    | none => { owner := «from», staked := totalUpdate.amount }
    | some v => { v with staked := int64 (v.staked + totalUpdate.amount) }
  eosioAssert (0 ≤ fromVoter.staked) "stake for voting cannot be negative"
  pure (t.insert «from» fromVoter)

/-- `system_contract::changebw`. With `transfer` the stake is given away: the rows are kept
under `receiver` as if `receiver` had staked it, while the tokens come from `from`. -/
def changebw (env : Token.Env) (auths : List Name) (now : UInt32) (s : State)
    («from» receiver : Name) (stakeNetDelta stakeCpuDelta : Asset) (transfer : Bool) :
    Except String State := do
  requireAuth auths «from»
  eosioAssert (← stakeNetDelta.ne asset0 <||> stakeCpuDelta.ne asset0) "should stake non-zero amount"
  let sum ← stakeNetDelta.addAssign stakeCpuDelta
  eosioAssert (sum.amount.natAbs ≥ max stakeNetDelta.amount.natAbs stakeCpuDelta.amount.natAbs)
    "net and cpu deltas cannot be opposite signs"
  let sourceStakeFrom := «from»
  let «from» := if transfer then receiver else «from»
  let delband ← updateDelband s.delband «from» receiver stakeNetDelta stakeCpuDelta
  let userres ← updateTotals s.userres receiver stakeNetDelta stakeCpuDelta
  -- for `eosio.stake` itself neither the transfer nor a refund makes sense
  let (refunds, token) ← (if eosioStake ≠ sourceStakeFrom then do
      let (refunds, netBalance, cpuBalance) ←
        updateRefunds now s.refunds «from» receiver transfer stakeNetDelta stakeCpuDelta
      let transferAmount ← netBalance.addAssign cpuBalance
      if ← asset0.lt transferAmount then
        let token ← Token.transfer env [sourceStakeFrom] s.token sourceStakeFrom eosioStake
          transferAmount "stake bandwidth"
        pure (refunds, token)
      else
        pure (refunds, s.token)
    else
      pure (s.refunds, s.token))
  let voters ← updateVoter s.voters «from» stakeNetDelta stakeCpuDelta
  pure { token, delband, userres, refunds, voters }

/-- `system_contract::delegatebw`. -/
def delegatebw (env : Token.Env) (auths : List Name) (now : UInt32) (s : State)
    («from» receiver : Name) (stakeNetQuantity stakeCpuQuantity : Asset) (transfer : Bool) :
    Except String State := do
  eosioAssert (← stakeCpuQuantity.ge asset0) "must stake a positive amount"
  eosioAssert (← stakeNetQuantity.ge asset0) "must stake a positive amount"
  let sum ← stakeNetQuantity.addAssign stakeCpuQuantity
  eosioAssert (← sum.gt asset0) "must stake a positive amount"
  eosioAssert (!transfer || «from» ≠ receiver) "cannot use transfer flag if delegating to self"
  changebw env auths now s «from» receiver stakeNetQuantity stakeCpuQuantity transfer

/-- `system_contract::undelegatebw`, allowed once the chain has been activated by voting. -/
def undelegatebw (env : Token.Env) (auths : List Name) (now : UInt32) (totalActivatedStake : Int)
    (s : State) («from» receiver : Name) (unstakeNetQuantity unstakeCpuQuantity : Asset) :
    Except String State := do
  eosioAssert (← asset0.le unstakeCpuQuantity) "must unstake a positive amount"
  eosioAssert (← asset0.le unstakeNetQuantity) "must unstake a positive amount"
  let sum ← unstakeCpuQuantity.addAssign unstakeNetQuantity
  eosioAssert (← asset0.lt sum) "must unstake a positive amount"
  eosioAssert (totalActivatedStake ≥ minActivatedStake)
    "cannot undelegate bandwidth until the chain is activated (at least 15% of all tokens participate in voting)"
  changebw env auths now s «from» receiver unstakeNetQuantity.neg unstakeCpuQuantity.neg false

/-- `system_contract::refund`: pays a request out of `eosio.stake` once `refund_delay` has
passed (the sum is taken in `uint32_t`, as the code does). -/
def refund (env : Token.Env) (auths : List Name) (now : UInt32) (s : State) (owner : Name) :
    Except String State := do
  requireAuth auths owner
  let req ← getRow s.refunds owner "refund request not found"
  eosioAssert (req.requestTime + refundDelay ≤ now) "refund is not available yet"
  let quantity ← req.netAmount.addAssign req.cpuAmount
  let token ← Token.transfer env [eosioStake] s.token eosioStake req.owner quantity "unstake"
  pure { s with token, refunds := s.refunds.erase owner }

/-- The staking actions, and the token actions that run beside them. -/
inductive Action where
  | delegatebw («from» receiver : Name) (stakeNetQuantity stakeCpuQuantity : Asset) (transfer : Bool)
  | undelegatebw («from» receiver : Name) (unstakeNetQuantity unstakeCpuQuantity : Asset)
  | refund (owner : Name)
  | token (act : Token.Action)

/-- An action with its authorizers and what it reads of the chain: the time of the block and
the stake that has voted (`_gstate.total_activated_stake`, written by the voting actions). -/
structure Request where
  auths : List Name
  now : UInt32
  totalActivatedStake : Int
  act : Action

/-- One action, completed or aborted as a whole. -/
def step (env : Token.Env) (s : State) (r : Request) : Except String State :=
  match r.act with
  | .delegatebw f recv net cpu tr => delegatebw env r.auths r.now s f recv net cpu tr
  | .undelegatebw f recv net cpu =>
    undelegatebw env r.auths r.now r.totalActivatedStake s f recv net cpu
  | .refund owner => refund env r.auths r.now s owner
  | .token act => do
    let token ← Token.step env s.token ⟨r.auths, act⟩
    pure { s with token }

/-- The tables when the contracts are deployed. -/
def State.init : State := ⟨Token.State.init, ∅, ∅, ∅, ∅⟩

end System
end Safeos
