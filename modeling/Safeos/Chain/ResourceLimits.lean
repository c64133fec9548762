import Safeos.Asset
import Mathlib.Data.List.AList

/-!
# Resource limits (`chain/resource_limits.cpp`, `chain/resource_limits_private.hpp`)

The resource limits manager keeps per account its limits (a `resource_limits_object`: RAM bytes,
NET and CPU weights, `-1` for unlimited) and its usage (a `resource_usage_object`: moving
averages of its NET and CPU use over a window), and chain-wide the total weights, the usage of
the pending block and the elastic virtual limits (the `resource_limits_state_object`). New limits
go to a pending row of the account; `process_account_limit_updates` applies every pending row
to the actual one and to the totals.

`exponential_moving_average_accumulator::add` mutates its object field by field and may throw in
between, so it runs in `EStateM`, whose errors keep the state at the throw. The manager's own
functions run inside the transaction's undo session and complete or fail as a whole: `Except`.
`uint64_t` fields are `UInt64`, `int64_t` limits are `Int`, and `uint128_t` arithmetic is on
`Nat`, reduced mod `2^128` where a product can leave it.
-/

namespace Safeos

/-! The constants of `chain/config.hpp` the manager reads. -/

namespace Config

def blockIntervalMs : Nat := 500
def percent100 : Nat := 10000
def percent1 : Nat := 100
def accountCpuUsageAverageWindowMs : Nat := 24 * 60 * 60 * 1000
def accountNetUsageAverageWindowMs : Nat := 24 * 60 * 60 * 1000
def blockCpuUsageAverageWindowMs : Nat := 60 * 1000
def blockSizeAverageWindowMs : Nat := 60 * 1000
def rateLimitingPrecision : Nat := 1000 * 1000
def defaultMaxBlockNetUsage : Nat := 1024 * 1024
def defaultTargetBlockNetUsagePct : Nat := 10 * percent1
def defaultMaxBlockCpuUsage : Nat := 200000
def defaultTargetBlockCpuUsagePct : Nat := 10 * percent1

end Config

/-- `EOS_PERCENT`. -/
def eosPercent (value : UInt64) (percentage : UInt32) : UInt64 :=
  value * percentage.toUInt64 / Config.percent100.toUInt64

namespace ResourceLimits

/-- `std::numeric_limits<uint64_t>::max()`. -/
def uint64Max : UInt64 := 0xFFFFFFFFFFFFFFFF

/-- `std::numeric_limits<int64_t>::max()`. -/
def int64Max : Nat := 2 ^ 63 - 1

/-- `impl::integer_divide_ceil`, at `uint64_t` and at `uint128_t`. -/
def integerDivideCeil {α : Type} [Div α] [Mod α] [Add α] [LT α] [∀ a b : α, Decidable (a < b)]
    [OfNat α 0] [OfNat α 1] (num den : α) : α :=
  num / den + if num % den > 0 then 1 else 0

/-- `ratio<uint64_t>`. -/
structure Ratio where
  numerator : UInt64
  denominator : UInt64
deriving DecidableEq, Repr

/-- `impl::operator*` of a `uint64_t` and a ratio. -/
def mulRatio (value : UInt64) (r : Ratio) : Except String UInt64 := do
  eosioAssert (r.numerator == 0 || uint64Max / r.numerator ≥ value)
    "Usage exceeds maximum value representable after extending for precision"
  pure (value * r.numerator / r.denominator)

/-- `impl::downgrade_cast` of a `uint128_t` to `uint64_t` or `int64_t`, whose largest value is
`max`; the smallest is `0` in both. -/
def downgradeCast (max val : Nat) : Except String Nat := do
  eosioAssert (val ≤ max) ("Casting a higher bit integer value ${v} to a lower bit integer value " ++
    "which cannot contain the value, valid range is [${min}, ${max}]")
  pure val

/-! ### The accumulator -/

/-- `exponential_moving_average_accumulator<config::rate_limiting_precision>`. -/
structure Accumulator where
  lastOrdinal : UInt32 := 0
  valueEx : UInt64 := 0
  consumed : UInt64 := 0
deriving DecidableEq, Repr

namespace Accumulator

/-- The template parameter `Precision`. -/
def precision : UInt64 := Config.rateLimitingPrecision.toUInt64

def maxRawValue : UInt64 := uint64Max / precision

/-- `average`. -/
def average (a : Accumulator) : UInt64 :=
  integerDivideCeil a.valueEx precision

/-- `add`: the checks, then the decay of the average to `ordinal`, then the new units. -/
def add (units : UInt64) (ordinal windowSize : UInt32) : EStateM String Accumulator Unit := do
  let self ← get
  -- check for some numerical limits before doing any state mutations
  MonadExcept.ofExcept <| eosioAssert (units ≤ maxRawValue)
    "Usage exceeds maximum value representable after extending for precision"
  MonadExcept.ofExcept <| eosioAssert (uint64Max - self.consumed ≥ units)
    "Overflow in tracked usage when adding usage!"
  let valueExContrib ← MonadExcept.ofExcept <| downgradeCast uint64Max.toNat
    (integerDivideCeil (units.toNat * precision.toNat) windowSize.toNat)
  MonadExcept.ofExcept <| eosioAssert (uint64Max - self.valueEx ≥ valueExContrib.toUInt64)
    "Overflow in accumulated value when adding usage!"
  (if self.lastOrdinal != ordinal then do
      MonadExcept.ofExcept <| eosioAssert (ordinal > self.lastOrdinal)
        "new ordinal cannot be less than the previous ordinal"
      (if self.lastOrdinal.toUInt64 + windowSize.toUInt64 > ordinal.toUInt64 then do
          let delta := ordinal - self.lastOrdinal
          let decay : Ratio := ⟨windowSize.toUInt64 - delta.toUInt64, windowSize.toUInt64⟩
          let valueEx ← MonadExcept.ofExcept <| mulRatio self.valueEx decay
          modify fun a => { a with valueEx }
        else modify fun a => { a with valueEx := 0 })
      modify fun a => { a with lastOrdinal := ordinal }
      modify fun a => { a with consumed := a.average }
    else pure ())
  modify fun a => { a with consumed := a.consumed + units }
  modify fun a => { a with valueEx := a.valueEx + valueExContrib.toUInt64 }

/-- `add` inside a `_db.modify` of the transaction: a throw aborts the transaction, and its
undo session takes the object back. -/
def apply (a : Accumulator) (units : UInt64) (ordinal windowSize : UInt32) :
    Except String Accumulator :=
  match (add units ordinal windowSize).run a with
  | .ok _ a' => .ok a'
  | .error e _ => .error e

end Accumulator

/-! ### The objects -/

/-- The limits of a `resource_limits_object`. -/
structure Limits where
  netWeight : Int := -1
  cpuWeight : Int := -1
  ramBytes : Int := -1
deriving DecidableEq, Repr

/-- A `resource_usage_object`. -/
structure Usage where
  netUsage : Accumulator := {}
  cpuUsage : Accumulator := {}
  ramUsage : UInt64 := 0
deriving DecidableEq, Repr

/-- `elastic_limit_parameters`. -/
structure ElasticLimitParameters where
  target : UInt64
  max : UInt64
  periods : UInt32
  maxMultiplier : UInt32
  contractRate : Ratio
  expandRate : Ratio
deriving DecidableEq, Repr

/-- `resource_limits_config_object`, with its defaults. -/
structure ConfigObject where
  cpuLimitParameters : ElasticLimitParameters :=
    ⟨eosPercent Config.defaultMaxBlockCpuUsage.toUInt64 Config.defaultTargetBlockCpuUsagePct.toUInt32,
      Config.defaultMaxBlockCpuUsage.toUInt64,
      (Config.blockCpuUsageAverageWindowMs / Config.blockIntervalMs).toUInt32, 1000, ⟨99, 100⟩,
      ⟨1000, 999⟩⟩
  netLimitParameters : ElasticLimitParameters :=
    ⟨eosPercent Config.defaultMaxBlockNetUsage.toUInt64 Config.defaultTargetBlockNetUsagePct.toUInt32,
      Config.defaultMaxBlockNetUsage.toUInt64,
      (Config.blockSizeAverageWindowMs / Config.blockIntervalMs).toUInt32, 1000, ⟨99, 100⟩,
      ⟨1000, 999⟩⟩
  accountCpuUsageAverageWindow : UInt32 :=
    (Config.accountCpuUsageAverageWindowMs / Config.blockIntervalMs).toUInt32
  accountNetUsageAverageWindow : UInt32 :=
    (Config.accountNetUsageAverageWindowMs / Config.blockIntervalMs).toUInt32
deriving DecidableEq, Repr

/-- The manager's part of the chain database: the limits rows under their `by_owner` key
`(pending, owner)`, the usage rows by owner, the config object and the fields of the state
object. -/
structure State where
  limits : AList fun _ : Bool × Name => Limits
  usage : AList fun _ : Name => Usage
  config : ConfigObject
  averageBlockNetUsage : Accumulator
  averageBlockCpuUsage : Accumulator
  pendingNetUsage : UInt64
  pendingCpuUsage : UInt64
  totalNetWeight : UInt64
  totalCpuWeight : UInt64
  totalRamBytes : UInt64
  virtualNetLimit : UInt64
  virtualCpuLimit : UInt64

/-- The two rate-limited resources, for the functions the source writes once for each. -/
inductive Resource
  | cpu
  | net
deriving DecidableEq, Repr

namespace Resource

def weight : Resource → Limits → Int
  | cpu, l => l.cpuWeight
  | net, l => l.netWeight

def usageOf : Resource → Usage → Accumulator
  | cpu, u => u.cpuUsage
  | net, u => u.netUsage

def window : Resource → ConfigObject → UInt32
  | cpu, c => c.accountCpuUsageAverageWindow
  | net, c => c.accountNetUsageAverageWindow

def params : Resource → ConfigObject → ElasticLimitParameters
  | cpu, c => c.cpuLimitParameters
  | net, c => c.netLimitParameters

def totalWeight : Resource → State → UInt64
  | cpu, s => s.totalCpuWeight
  | net, s => s.totalNetWeight

def virtualLimit : Resource → State → UInt64
  | cpu, s => s.virtualCpuLimit
  | net, s => s.virtualNetLimit

def pendingUsage : Resource → State → UInt64
  | cpu, s => s.pendingCpuUsage
  | net, s => s.pendingNetUsage

end Resource

/-! ### The manager -/

namespace State

/-- `initialize_database`: the chain starts congested, at the smallest virtual limits. -/
def initializeDatabase : State :=
  let config : ConfigObject := {}
  { limits := ∅, usage := ∅, config := config, averageBlockNetUsage := {}
    averageBlockCpuUsage := {}, pendingNetUsage := 0, pendingCpuUsage := 0, totalNetWeight := 0
    totalCpuWeight := 0, totalRamBytes := 0, virtualNetLimit := config.netLimitParameters.max
    virtualCpuLimit := config.cpuLimitParameters.max }

/-- `_db.get<resource_limits_object, by_owner>`. -/
def getLimitsRow (s : State) (key : Bool × Name) : Except String Limits :=
  match s.limits.lookup key with
  | some l => pure l
  | none => throw "unknown key"

/-- `_db.get<resource_usage_object, by_owner>`. -/
def getUsage (s : State) (account : Name) : Except String Usage :=
  match s.usage.lookup account with
  | some u => pure u
  | none => throw "unknown key"

/-- `initialize_account`: an actual limits row, unlimited, and an empty usage row. -/
def initializeAccount (s : State) (account : Name) : Except String State := do
  eosioAssert (s.limits.lookup (false, account)).isNone uniquenessViolation
  eosioAssert (s.usage.lookup account).isNone uniquenessViolation
  pure { s with limits := s.limits.insert (false, account) {}, usage := s.usage.insert account {} }

/-- `set_account_limits`: the new limits go to the pending row, created from the actual one if
there is none; the result says whether the RAM limit went down. -/
def setAccountLimits (s : State) (account : Name) (ramBytes netWeight cpuWeight : Int) :
    Except String (State × Bool) := do
  -- `find_or_create_pending_limits`
  let (s, limits) ← (match s.limits.lookup (true, account) with
    | none => do
      let limits ← s.getLimitsRow (false, account)
      pure ({ s with limits := s.limits.insert (true, account) limits }, limits)
    | some pendingLimits => pure (s, pendingLimits))
  let decreasedLimit := ramBytes ≥ 0 && (limits.ramBytes < 0 || ramBytes < limits.ramBytes)
  pure ({ s with limits := s.limits.insert (true, account) ⟨netWeight, cpuWeight, ramBytes⟩ },
    decreasedLimit)

/-- `get_account_limits`: the pending limits if there are any, else the actual ones. -/
def getAccountLimits (s : State) (account : Name) : Except String Limits :=
  match s.limits.lookup (true, account) with
  | some pendingBuo => pure pendingBuo
  | none => s.getLimitsRow (false, account)

/-- The lambda `update_state_and_value` of `process_account_limit_updates`: the old value comes
off the total and the pending one goes on; the row then takes the pending value. -/
def updateStateAndValue (total : UInt64) (value pendingValue : Int) : Except String UInt64 := do
  let total ← (if value > 0 then do
      eosioAssert (total.toNat ≥ value) "underflow when reverting old value to ${which}"
      pure (total - value.toNat.toUInt64)
    else pure total)
  if pendingValue > 0 then do
    eosioAssert (uint64Max.toNat - total.toNat ≥ pendingValue)
      "overflow when applying new value to ${which}"
    pure (total + pendingValue.toNat.toUInt64)
  else pure total

/-- The owners of the pending rows, in `by_owner` order. -/
def pendingOwners (s : State) : List Name :=
  (s.limits.keys.filterMap fun k => if k.1 then some k.2 else none).mergeSort
    fun a b => decide (a ≤ b)

/-- One pass of the loop of `process_account_limit_updates`: the pending row of `owner` goes to
its actual row and to the totals, and is removed. -/
def applyPendingLimits (s : State) (owner : Name) : Except String State := do
  let actualEntry ← s.getLimitsRow (false, owner)
  let itr ← s.getLimitsRow (true, owner)
  let totalRamBytes ← updateStateAndValue s.totalRamBytes actualEntry.ramBytes itr.ramBytes
  let totalCpuWeight ← updateStateAndValue s.totalCpuWeight actualEntry.cpuWeight itr.cpuWeight
  let totalNetWeight ← updateStateAndValue s.totalNetWeight actualEntry.netWeight itr.netWeight
  pure { s with
    totalRamBytes := totalRamBytes
    totalCpuWeight := totalCpuWeight
    totalNetWeight := totalNetWeight
    limits := (s.limits.insert (false, owner) itr).erase (true, owner) }

/-- `process_account_limit_updates`. Each pass of the source's loop takes the first pending row
of `by_owner` and removes it, and no pass touches another pending row: the passes go through
the pending owners in order. -/
def processAccountLimitUpdates (s : State) : Except String State :=
  s.pendingOwners.foldlM applyPendingLimits s

/-- `update_account_usage`: the averages of each account decayed to `timeSlot`. -/
def updateAccountUsage (s : State) (accounts : List Name) (timeSlot : UInt32) :
    Except String State :=
  accounts.foldlM (fun s a => do
    let usage ← s.getUsage a
    let netUsage ← usage.netUsage.apply 0 timeSlot s.config.accountNetUsageAverageWindow
    let cpuUsage ← usage.cpuUsage.apply 0 timeSlot s.config.accountCpuUsageAverageWindow
    pure { s with usage := s.usage.insert a { usage with netUsage, cpuUsage } }) s

/-- The window check of `add_transaction_usage` for one resource of one account: an account with
a weight may use its share of the virtual capacity of the window. -/
def checkAccountUsage (r : Resource) (s : State) (usage : Usage) (weight : Int) (msg : String) :
    Except String Unit :=
  if weight ≥ 0 ∧ r.totalWeight s > 0 then
    let windowSize := (r.window s.config).toNat
    let virtualNetworkCapacityInWindow := (r.virtualLimit s).toNat * windowSize
    let usedInWindow := (r.usageOf usage).valueEx.toNat * windowSize / Config.rateLimitingPrecision
    let maxUserUseInWindow :=
      virtualNetworkCapacityInWindow * weight.toNat % 2 ^ 128 / (r.totalWeight s).toNat
    eosioAssert (usedInWindow ≤ maxUserUseInWindow) msg
  else pure ()

/-- `add_transaction_usage`: each billed account's averages take the usage and are checked
against its share, and the block's usage is checked against the block's limits. -/
def addTransactionUsage (s : State) (accounts : List Name) (cpuUsage netUsage : UInt64)
    (timeSlot : UInt32) : Except String State := do
  let s ← accounts.foldlM (fun s a => do
    let usage ← s.getUsage a
    let l ← s.getAccountLimits a
    let netAcc ← usage.netUsage.apply netUsage timeSlot s.config.accountNetUsageAverageWindow
    let cpuAcc ← usage.cpuUsage.apply cpuUsage timeSlot s.config.accountCpuUsageAverageWindow
    let usage := { usage with netUsage := netAcc, cpuUsage := cpuAcc }
    checkAccountUsage .cpu s usage l.cpuWeight
      "authorizing account '${n}' has insufficient cpu resources for this transaction"
    checkAccountUsage .net s usage l.netWeight
      "authorizing account '${n}' has insufficient net resources for this transaction"
    pure { s with usage := s.usage.insert a usage }) s
  -- account for this transaction in the block and do not exceed those limits either
  let s := { s with
    pendingCpuUsage := s.pendingCpuUsage + cpuUsage
    pendingNetUsage := s.pendingNetUsage + netUsage }
  eosioAssert (s.pendingCpuUsage ≤ s.config.cpuLimitParameters.max)
    "Block has insufficient cpu resources"
  eosioAssert (s.pendingNetUsage ≤ s.config.netLimitParameters.max)
    "Block has insufficient net resources"
  pure s

/-- `update_elastic_limit`: the limit contracts while the average is above the target and
expands otherwise, between `max` and `max * max_multiplier`. -/
def updateElasticLimit (currentLimit averageUsage : UInt64) (params : ElasticLimitParameters) :
    Except String UInt64 := do
  let result ← mulRatio currentLimit
    (if averageUsage > params.target then params.contractRate else params.expandRate)
  pure (min (max result params.max) (params.max * params.maxMultiplier.toUInt64))

/-- `process_block_usage`: the block's usage goes into the block averages, which move the
virtual limits. -/
def processBlockUsage (s : State) (blockNum : UInt32) : Except String State := do
  let averageBlockCpuUsage ← s.averageBlockCpuUsage.apply s.pendingCpuUsage blockNum
    s.config.cpuLimitParameters.periods
  let virtualCpuLimit ← updateElasticLimit s.virtualCpuLimit averageBlockCpuUsage.average
    s.config.cpuLimitParameters
  let averageBlockNetUsage ← s.averageBlockNetUsage.apply s.pendingNetUsage blockNum
    s.config.netLimitParameters.periods
  let virtualNetLimit ← updateElasticLimit s.virtualNetLimit averageBlockNetUsage.average
    s.config.netLimitParameters
  pure { s with
    averageBlockCpuUsage := averageBlockCpuUsage
    virtualCpuLimit := virtualCpuLimit
    pendingCpuUsage := 0
    averageBlockNetUsage := averageBlockNetUsage
    virtualNetLimit := virtualNetLimit
    pendingNetUsage := 0 }

/-- `get_block_cpu_limit` and `get_block_net_limit`: what is left of the block. -/
def getBlockLimit (r : Resource) (s : State) : UInt64 :=
  (r.params s.config).max - r.pendingUsage s

def getBlockCpuLimit (s : State) : UInt64 := getBlockLimit .cpu s
def getBlockNetLimit (s : State) : UInt64 := getBlockLimit .net s

/-- `account_resource_limit`. -/
structure AccountResourceLimit where
  used : Int := 0
  available : Int := 0
  max : Int := 0
deriving DecidableEq, Repr

/-- `get_account_cpu_limit_ex` and `get_account_net_limit_ex`: an account's share of the
capacity of the window (elastic, or at the block maximum), what it used of it rounded up, and
what is left. An account without a weight, or a chain without weights, is unlimited. -/
def getAccountLimitEx (r : Resource) (s : State) (name : Name) (elastic : Bool) :
    Except String AccountResourceLimit := do
  let usage ← s.getUsage name
  let weight := r.weight (← s.getAccountLimits name)
  if weight < 0 ∨ r.totalWeight s = 0 then pure ⟨-1, -1, -1⟩
  else do
    let windowSize := (r.window s.config).toNat
    let virtualCapacityInWindow :=
      (if elastic then r.virtualLimit s else (r.params s.config).max).toNat * windowSize
    let maxUserUseInWindow := virtualCapacityInWindow * weight.toNat % 2 ^ 128 / (r.totalWeight s).toNat
    let usedInWindow := integerDivideCeil ((r.usageOf usage).valueEx.toNat * windowSize)
      Config.rateLimitingPrecision
    let available ← (if maxUserUseInWindow ≤ usedInWindow then pure 0
      else downgradeCast int64Max (maxUserUseInWindow - usedInWindow))
    let used ← downgradeCast int64Max usedInWindow
    let max ← downgradeCast int64Max maxUserUseInWindow
    pure ⟨used, available, max⟩

def getAccountCpuLimitEx (s : State) (name : Name) (elastic : Bool) :
    Except String AccountResourceLimit := getAccountLimitEx .cpu s name elastic

def getAccountNetLimitEx (s : State) (name : Name) (elastic : Bool) :
    Except String AccountResourceLimit := getAccountLimitEx .net s name elastic

/-- `get_account_cpu_limit`. -/
def getAccountCpuLimit (s : State) (name : Name) (elastic : Bool) : Except String Int :=
  (·.available) <$> s.getAccountCpuLimitEx name elastic

/-- `get_account_net_limit`. -/
def getAccountNetLimit (s : State) (name : Name) (elastic : Bool) : Except String Int :=
  (·.available) <$> s.getAccountNetLimitEx name elastic

end State

/-- The calls that change the accounts' limits. -/
inductive Request
  | initializeAccount (account : Name)
  | setAccountLimits (account : Name) (ramBytes netWeight cpuWeight : Int)
  | processAccountLimitUpdates

/-- One call. -/
def step (s : State) : Request → Except String State
  | .initializeAccount a => s.initializeAccount a
  | .setAccountLimits a ramBytes netWeight cpuWeight =>
    (·.1) <$> s.setAccountLimits a ramBytes netWeight cpuWeight
  | .processAccountLimitUpdates => s.processAccountLimitUpdates

end ResourceLimits
end Safeos
