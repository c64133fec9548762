import Safeos.Token
import Safeos.Varint
import Safeos.Auth.Authority

/-!
# The multisig contract (`contracts/eosio.msig`)

A proposer stores a packed transaction under a proposal name, with the list of permission levels
whose approval it requests. Two tables, both scoped by the proposer and keyed by the proposal
name, hold the proposal: `proposal` the packed transaction, `approvals` the requested and the
provided approvals. `approve` moves a level from the first list to the second, `unapprove` moves
it back; `exec` sends the transaction as a deferred one when `check_transaction_authorization`
accepts it with the provided approvals, and `cancel` drops the proposal, which only the proposer
may do before it expires.

`propose` reads its arguments from the raw action data; here they come as the arguments of the
action, the transaction as the bytes after `requested`. The intrinsic
`check_transaction_authorization` depends on the chain's permissions at the time of the action,
so each request carries it. `send_deferred` adds the transaction to what the contract has sent;
the chain's own checks on a deferred transaction are those of `ApplyContext`.
-/

namespace Safeos
namespace Msig

open Token (requireAuth getRow)

/-! ### Reading a transaction header (`datastream`) -/

/-- `datastream::read`: the next `n` bytes, or abort when fewer are left. -/
def readBytes (n : Nat) (bytes : List UInt8) : Except String (List UInt8 × List UInt8) := do
  eosioAssert (n ≤ bytes.length) "read"
  pure (bytes.take n, bytes.drop n)

/-- The value of bytes stored lowest first, as the contracts' targets store integers. -/
def littleEndian (bs : List UInt8) : Nat := bs.foldr (fun b acc => b.toNat + 256 * acc) 0

/-- `transaction_header`. -/
structure TransactionHeader where
  expiration : UInt32
  refBlockNum : UInt16
  refBlockPrefix : UInt32
  netUsageWords : UInt32
  maxCpuUsageMs : UInt8
  delaySec : UInt32
deriving DecidableEq, Repr

/-- `operator>>` of `transaction_header`, its fields in the order of `EOSLIB_SERIALIZE`:
`expiration` (a `time_point_sec`, its `uint32_t` seconds), `ref_block_num`, `ref_block_prefix`,
`net_usage_words`, `max_cpu_usage_ms`, `delay_sec`. -/
def unpackTransactionHeader (bytes : List UInt8) : Except String TransactionHeader := do
  let (expiration, bytes) ← readBytes 4 bytes
  let (refBlockNum, bytes) ← readBytes 2 bytes
  let (refBlockPrefix, bytes) ← readBytes 4 bytes
  let (netUsageWords, bytes) ← Varint.unpackUnsignedInt bytes
  let (maxCpuUsageMs, bytes) ← readBytes 1 bytes
  let (delaySec, _) ← Varint.unpackUnsignedInt bytes
  pure
    { expiration := UInt32.ofNat (littleEndian expiration)
      refBlockNum := UInt16.ofNat (littleEndian refBlockNum)
      refBlockPrefix := UInt32.ofNat (littleEndian refBlockPrefix)
      netUsageWords := netUsageWords
      maxCpuUsageMs := UInt8.ofNat (littleEndian maxCpuUsageMs)
      delaySec := delaySec }

/-! ### The tables -/

/-- `multisig::proposal`, a row of `proposal`. -/
structure Proposal where
  proposalName : Name
  packedTransaction : List UInt8
deriving DecidableEq, Repr

/-- `multisig::approvals_info`, a row of `approvals`. -/
structure ApprovalsInfo where
  proposalName : Name
  requestedApprovals : List PermissionLevel
  providedApprovals : List PermissionLevel
deriving DecidableEq, Repr

/-- A transaction handed to `send_deferred`: its `sender_id`, its payer and its bytes. -/
structure DeferredSend where
  senderId : Nat
  payer : Name
  packedTransaction : List UInt8
deriving DecidableEq, Repr

/-- The two tables, by scope (the proposer) and proposal name, and the deferred transactions
the contract has sent. -/
structure State where
  proposals : AList (fun _ : Name × Name => Proposal)
  approvals : AList (fun _ : Name × Name => ApprovalsInfo)
  sent : List DeferredSend

/-- The tables when the contract is deployed. -/
def State.init : State := ⟨∅, ∅, []⟩

/-- `multi_index::emplace`: the store of a new row, which fails on a primary key in use. -/
def emplace {ν : Type} (t : AList (fun _ : Name × Name => ν)) (k : Name × Name) (v : ν) :
    Except String (AList (fun _ : Name × Name => ν)) := do
  eosioAssert (t.lookup k).isNone uniquenessViolation
  pure (t.insert k v)

/-- `require_auth( permission_level )`: the level itself must be among the action's
authorizations. -/
def requireAuthLevel (auths : List PermissionLevel) (level : PermissionLevel) :
    Except String Unit :=
  eosioAssert (auths.contains level) "missing authority"

/-- `uint128_t(proposer) << 64 | proposal_name`, the `sender_id` of `exec`. -/
def senderIdOf (proposer proposalName : Name) : Nat :=
  proposer.value.toNat * 2 ^ 64 + proposalName.value.toNat

/-! ### The actions

`auths` are the action's authorizations, `now` the time of its block in seconds, and
`checkAuth` the intrinsic `check_transaction_authorization` with the chain's permissions of
that time. -/

/-- `multisig::propose`, from the header of the transaction on. -/
def propose (auths : List PermissionLevel) (now : UInt32)
    (checkAuth : List UInt8 → List PermissionLevel → Bool) (s : State)
    (proposer proposalName : Name) (requested : List PermissionLevel) (trx : List UInt8) :
    Except String State := do
  let trxHeader ← unpackTransactionHeader trx
  requireAuth (auths.map (·.actor)) proposer
  eosioAssert (trxHeader.expiration ≥ now) "transaction expired"
  eosioAssert (s.proposals.lookup (proposer, proposalName)).isNone
    "proposal with the same name exists"
  eosioAssert (checkAuth trx requested) "transaction authorization failed"
  let proposals ← emplace s.proposals (proposer, proposalName) ⟨proposalName, trx⟩
  let approvals ← emplace s.approvals (proposer, proposalName) ⟨proposalName, requested, []⟩
  pure { s with proposals, approvals }

/-- `multisig::approve`: the first requested entry equal to `level` moves to the provided ones. -/
def approve (auths : List PermissionLevel) (s : State) (proposer proposalName : Name)
    (level : PermissionLevel) : Except String State := do
  requireAuthLevel auths level
  let apps ← getRow s.approvals (proposer, proposalName) "proposal not found"
  eosioAssert (apps.requestedApprovals.contains level)
    "approval is not on the list of requested approvals"
  let apps := { apps with
    providedApprovals := apps.providedApprovals ++ [level]
    requestedApprovals := apps.requestedApprovals.erase level }
  pure { s with approvals := s.approvals.insert (proposer, proposalName) apps }

/-- `multisig::unapprove`: the first provided entry equal to `level` moves back. -/
def unapprove (auths : List PermissionLevel) (s : State) (proposer proposalName : Name)
    (level : PermissionLevel) : Except String State := do
  requireAuthLevel auths level
  let apps ← getRow s.approvals (proposer, proposalName) "proposal not found"
  eosioAssert (apps.providedApprovals.contains level) "no approval previously granted"
  let apps := { apps with
    requestedApprovals := apps.requestedApprovals ++ [level]
    providedApprovals := apps.providedApprovals.erase level }
  pure { s with approvals := s.approvals.insert (proposer, proposalName) apps }

/-- `multisig::cancel`: anyone but the proposer only after the expiration. -/
def cancel (auths : List PermissionLevel) (now : UInt32) (s : State)
    (proposer proposalName canceler : Name) : Except String State := do
  requireAuth (auths.map (·.actor)) canceler
  let prop ← getRow s.proposals (proposer, proposalName) "proposal not found"
  if canceler ≠ proposer then
    let trxHeader ← unpackTransactionHeader prop.packedTransaction
    eosioAssert (trxHeader.expiration < now) "cannot cancel until expiration"
  let _ ← getRow s.approvals (proposer, proposalName) "proposal not found"
  pure { s with
    proposals := s.proposals.erase (proposer, proposalName)
    approvals := s.approvals.erase (proposer, proposalName) }

/-- `multisig::exec`. -/
def exec (auths : List PermissionLevel) (now : UInt32)
    (checkAuth : List UInt8 → List PermissionLevel → Bool) (s : State)
    (proposer proposalName executer : Name) : Except String State := do
  requireAuth (auths.map (·.actor)) executer
  let prop ← getRow s.proposals (proposer, proposalName) "proposal not found"
  let apps ← getRow s.approvals (proposer, proposalName) "proposal not found"
  let trxHeader ← unpackTransactionHeader prop.packedTransaction
  eosioAssert (trxHeader.expiration ≥ now) "transaction expired"
  eosioAssert (checkAuth prop.packedTransaction apps.providedApprovals)
    "transaction authorization failed"
  pure { s with
    sent := s.sent ++ [⟨senderIdOf proposer proposalName, executer, prop.packedTransaction⟩]
    proposals := s.proposals.erase (proposer, proposalName)
    approvals := s.approvals.erase (proposer, proposalName) }

/-- The actions of `EOSIO_ABI( eosio::multisig, ... )`. -/
inductive Action where
  | propose (proposer proposalName : Name) (requested : List PermissionLevel) (trx : List UInt8)
  | approve (proposer proposalName : Name) (level : PermissionLevel)
  | unapprove (proposer proposalName : Name) (level : PermissionLevel)
  | cancel (proposer proposalName canceler : Name)
  | exec (proposer proposalName executer : Name)

/-- An action with its authorizations, the time of its block and the chain's
`check_transaction_authorization` at that time. -/
structure Request where
  auths : List PermissionLevel
  now : UInt32
  checkAuth : List UInt8 → List PermissionLevel → Bool
  act : Action

/-- One action, completed or aborted as a whole. -/
def step (s : State) (r : Request) : Except String State :=
  match r.act with
  | .propose proposer proposalName requested trx =>
    propose r.auths r.now r.checkAuth s proposer proposalName requested trx
  | .approve proposer proposalName level => approve r.auths s proposer proposalName level
  | .unapprove proposer proposalName level => unapprove r.auths s proposer proposalName level
  | .cancel proposer proposalName canceler => cancel r.auths r.now s proposer proposalName canceler
  | .exec proposer proposalName executer =>
    exec r.auths r.now r.checkAuth s proposer proposalName executer

end Msig
end Safeos
