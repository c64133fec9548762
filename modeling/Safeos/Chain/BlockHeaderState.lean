import Safeos.Asset
import Safeos.Lib.OrderStat
import Mathlib.Data.List.AList

/-!
# Block header states (`chain/block_header_state.cpp`)

The state a block header leaves behind: the block number, the two irreversibility numbers it
implies, the active and pending producer schedules, the per-producer maps of the last block
produced and the last irreversible block each producer implied, and `confirm_count`, the number
of confirmations each recent block still needs. `next` validates a signed header against the
state it extends and computes its state: `generate_next` builds the template for the header's
time, `set_confirmed` applies the header's confirmations, `maybe_promote_pending` makes a
pending schedule active once it is irreversible, and `set_new_producers` records a schedule the
header proposes.

Block numbers, schedule versions and confirmation counts are the code's fixed-width integers.
The two maps are `flat_map`s; only their lookups, assignments and the values `calc` sorts are
read, so an `AList` stands for each. Block ids, merkle roots and the schedule hash are not
modelled: a chain is the list of headers applied in turn, and a header's signature is the key
that signed it.
-/

namespace Safeos

namespace Config

/-- `config::producer_repetitions`. -/
def producerRepetitions : Nat := 12
/-- `config::maximum_tracked_dpos_confirmations`. -/
def maximumTrackedDposConfirmations : Nat := 1024
/-- `config::max_producers`, the largest schedule `set_proposed_producers` accepts. -/
def maxProducers : Nat := 125

end Config

/-- `block_timestamp_type`: a slot number; the default timestamp is slot `0`. -/
structure BlockTimestamp where
  slot : UInt32
deriving DecidableEq, Repr, Inhabited

instance : LT BlockTimestamp := ⟨fun a b => a.slot < b.slot⟩
instance (a b : BlockTimestamp) : Decidable (a < b) := inferInstanceAs (Decidable (a.slot < b.slot))

/-- `producer_key`. -/
structure ProducerKey (K : Type) where
  producerName : Name
  blockSigningKey : K
deriving DecidableEq, Repr

/-- `producer_schedule_type`. -/
structure ProducerScheduleType (K : Type) where
  version : UInt32
  producers : List (ProducerKey K)
deriving DecidableEq, Repr

/-- `block_header`, with the fields the header state reads. -/
structure BlockHeader (K : Type) where
  timestamp : BlockTimestamp
  producer : Name
  confirmed : UInt16 := 1
  scheduleVersion : UInt32 := 0
  newProducers : Option (ProducerScheduleType K) := none
deriving DecidableEq, Repr

/-- `signed_block_header`: a header and the key its signature recovers to. -/
structure SignedBlockHeader (K : Type) extends BlockHeader K where
  signee : K
deriving DecidableEq, Repr

/-- `block_header_state`. -/
structure BlockHeaderState (K : Type) where
  blockNum : UInt32
  dposProposedIrreversibleBlocknum : UInt32
  dposIrreversibleBlocknum : UInt32
  bftIrreversibleBlocknum : UInt32
  pendingScheduleLibNum : UInt32
  pendingSchedule : ProducerScheduleType K
  activeSchedule : ProducerScheduleType K
  producerToLastProduced : AList (fun _ : Name => UInt32)
  producerToLastImpliedIrb : AList (fun _ : Name => UInt32)
  blockSigningKey : K
  confirmCount : List UInt8
  header : BlockHeader K

namespace BlockHeaderState

variable {K : Type}

/-- `get_scheduled_producer`: each producer of the active schedule holds
`producer_repetitions` consecutive slots in turn. The code divides by zero on an empty
schedule; there is no producer then. -/
def getScheduledProducer (s : BlockHeaderState K) (t : BlockTimestamp) : Option (ProducerKey K) :=
  let index := t.slot.toNat % (s.activeSchedule.producers.length * Config.producerRepetitions)
  s.activeSchedule.producers[index / Config.producerRepetitions]?

/-- `calc_dpos_last_irreversible`: the entry a third of the way up the sorted implied
irreversible block numbers, so that two thirds of the producers imply at least it. -/
def calcDposLastIrreversible (s : BlockHeaderState K) : UInt32 :=
  let blocknums := s.producerToLastImpliedIrb.entries.map (·.2)
  if blocknums.length = 0 then 0
  else (blocknums.insertionSort (· ≤ ·)).getD ((blocknums.length - 1) / 3) 0

/-- `generate_next`: the template of the next block's state at time `when` (the default time is
the slot after this block's). -/
def generateNext (s : BlockHeaderState K) (when : BlockTimestamp) :
    Except String (BlockHeaderState K) := do
  let when ← (if when != default then do
      eosioAssert (decide (s.header.timestamp < when)) "next block must be in the future"
      pure when
    else pure ⟨s.header.timestamp.slot + 1⟩)
  let some prokey := s.getScheduledProducer when | throw "empty active schedule"
  let blockNum := s.blockNum + 1
  -- the previous block's schedule signs, and so confirms, this block
  let requiredConfs : UInt32 := (s.activeSchedule.producers.length * 2 / 3).toUInt32 + 1
  let result : BlockHeaderState K :=
    { blockNum
      dposProposedIrreversibleBlocknum := s.dposProposedIrreversibleBlocknum
      dposIrreversibleBlocknum := 0
      bftIrreversibleBlocknum := s.bftIrreversibleBlocknum
      pendingScheduleLibNum := s.pendingScheduleLibNum
      pendingSchedule := s.pendingSchedule
      activeSchedule := s.activeSchedule
      producerToLastProduced := s.producerToLastProduced.insert prokey.producerName blockNum
      producerToLastImpliedIrb :=
        s.producerToLastImpliedIrb.insert prokey.producerName s.dposProposedIrreversibleBlocknum
      blockSigningKey := prokey.blockSigningKey
      confirmCount :=
        if s.confirmCount.length < Config.maximumTrackedDposConfirmations then
          s.confirmCount ++ [requiredConfs.toUInt8]
        else s.confirmCount.tail ++ [requiredConfs.toUInt8]
      header :=
        { timestamp := when
          producer := prokey.producerName
          scheduleVersion := s.activeSchedule.version } }
  pure { result with dposIrreversibleBlocknum := result.calcDposLastIrreversible }

/-- The `while` loop of `set_confirmed`, at entry `i` with `blocksToConfirm` blocks left to
confirm (`i + 1` is the loop's index plus one, so that the loop stops at `0`). The first entry
whose count reaches zero becomes the proposed irreversible block, and it and every older entry
are dropped. -/
def setConfirmedLoop (s : BlockHeaderState K) : Nat → Nat → BlockHeaderState K
  | 0, _ => s
  | _, 0 => s
  | i + 1, blocksToConfirm + 1 =>
    let count := s.confirmCount.getD i 0 - 1
    let s := { s with confirmCount := s.confirmCount.set i count }
    if count = 0 then
      { s with
        dposProposedIrreversibleBlocknum := s.blockNum - (s.confirmCount.length - 1 - i).toUInt32
        confirmCount :=
          if i = s.confirmCount.length - 1 then [] else s.confirmCount.drop (i + 1) }
    else setConfirmedLoop s i blocksToConfirm

/-- `set_confirmed`: the header confirms its own block and `numPrevBlocks` before it. -/
def setConfirmed (s : BlockHeaderState K) (numPrevBlocks : UInt16) : BlockHeaderState K :=
  setConfirmedLoop { s with header := { s.header with confirmed := numPrevBlocks } }
    s.confirmCount.length (numPrevBlocks.toNat + 1)

/-- One producer map of `maybe_promote_pending`, rebuilt over the new active schedule: a
producer keeps its entry, and a newcomer starts at `dposIrreversibleBlocknum`. -/
def promoteProducerMap (producers : List (ProducerKey K)) (m : AList (fun _ : Name => UInt32))
    (dposIrreversibleBlocknum : UInt32) : AList (fun _ : Name => UInt32) :=
  producers.foldl (fun acc pro =>
    acc.insert pro.producerName ((m.lookup pro.producerName).getD dposIrreversibleBlocknum)) ∅

/-- `maybe_promote_pending`: once the pending schedule's block is irreversible, the pending
schedule becomes active. It returns whether it did. The `move` leaves the pending schedule's
version and no producers. -/
def maybePromotePending (s : BlockHeaderState K) : Bool × BlockHeaderState K :=
  if s.pendingSchedule.producers.length != 0 &&
      decide (s.dposIrreversibleBlocknum ≥ s.pendingScheduleLibNum) then
    let active := s.pendingSchedule
    let producerToLastProduced :=
      promoteProducerMap active.producers s.producerToLastProduced s.dposIrreversibleBlocknum
    (true, { s with
      activeSchedule := active
      pendingSchedule := { s.pendingSchedule with producers := [] }
      producerToLastProduced := producerToLastProduced.insert s.header.producer s.blockNum
      producerToLastImpliedIrb :=
        promoteProducerMap active.producers s.producerToLastImpliedIrb s.dposIrreversibleBlocknum })
  else (false, s)

/-- `set_new_producers`. -/
def setNewProducers (s : BlockHeaderState K) (pending : ProducerScheduleType K) :
    Except String (BlockHeaderState K) := do
  eosioAssert (pending.version == s.activeSchedule.version + 1)
    "wrong producer schedule version specified"
  eosioAssert (s.pendingSchedule.producers.length == 0)
    "cannot set new pending producers until last pending is confirmed"
  pure { s with
    header := { s.header with newProducers := some pending }
    pendingSchedule := pending
    pendingScheduleLibNum := s.blockNum }

variable [DecidableEq K]

/-- `block_header_state::next`: the state of the block with signed header `h`, built on this
one. -/
def next (s : BlockHeaderState K) (h : SignedBlockHeader K) (trust : Bool) :
    Except String (BlockHeaderState K) := do
  eosioAssert (h.timestamp != default) ""
  eosioAssert (decide (s.header.timestamp < h.timestamp)) "block must be later in time"
  let result ← s.generateNext h.timestamp
  eosioAssert (result.header.producer == h.producer) "wrong producer specified"
  eosioAssert (result.header.scheduleVersion == h.scheduleVersion)
    "schedule_version in signed block is corrupted"
  -- block numbers are `uint32_t`: the subtraction wraps when `confirmed` exceeds the number
  (match s.producerToLastProduced.lookup h.producer with
    | some lastProduced =>
      eosioAssert (decide (lastProduced < result.blockNum - h.confirmed.toUInt32))
        "producer ${prod} double-confirming known range"
    | none => pure ())
  let result := result.setConfirmed h.confirmed
  let (wasPendingPromoted, result) := result.maybePromotePending
  let result ← (match h.newProducers with
    | some newProducers => do
      eosioAssert (!wasPendingPromoted) ("cannot set pending producer schedule in the same " ++
        "block in which pending was promoted to active")
      result.setNewProducers newProducers
    | none => pure result)
  (if !trust then
      eosioAssert (result.blockSigningKey == h.signee) "block not signed by expected key"
    else pure ())
  pure result

/-- `controller_impl::initialize_fork_db`: block 1, whose active and pending schedules are both
version `0` with the system account as the only producer. -/
def genesis [Inhabited K] (initialKey : K) (initialTimestamp : BlockTimestamp) :
    BlockHeaderState K :=
  let initialSchedule : ProducerScheduleType K := ⟨0, [⟨Config.systemAccountName, initialKey⟩]⟩
  { blockNum := 1
    dposProposedIrreversibleBlocknum := 0
    dposIrreversibleBlocknum := 0
    bftIrreversibleBlocknum := 0
    pendingScheduleLibNum := 0
    pendingSchedule := initialSchedule
    activeSchedule := initialSchedule
    producerToLastProduced := ∅
    producerToLastImpliedIrb := ∅
    blockSigningKey := default
    confirmCount := []
    header := { timestamp := initialTimestamp, producer := ⟨0⟩ } }

/-! ## Chains from genesis -/

/-- Producer `n`, who signs with key `n`. -/
def producerKey (n : Nat) : ProducerKey Nat := ⟨⟨n.toUInt64⟩, n⟩

/-- The system account, the genesis producer, who signs with key `0`. -/
def systemProducerKey : ProducerKey Nat := ⟨Config.systemAccountName, 0⟩

/-- The header `prod` signs at `slot`, confirming `confirmed` blocks before its own. -/
def signedHeader (slot : UInt32) (prod : ProducerKey Nat) (confirmed : UInt16)
    (scheduleVersion : UInt32) (newProducers : Option (ProducerScheduleType Nat)) :
    SignedBlockHeader Nat :=
  { timestamp := ⟨slot⟩, producer := prod.producerName, confirmed, scheduleVersion, newProducers
    signee := prod.blockSigningKey }

/-- Blocks 2 to 10: the system account proposes producers 1 to 4 in block 3, and they take over
in block 4; producer 2 proposes producers 1 and 5 in block 5; producers 2, 3 and 4 produce and
confirm, producer 1 never does, and the new schedule takes over in block 10. -/
def promotionHeaders : List (SignedBlockHeader Nat) :=
  [signedHeader 1 systemProducerKey 0 0 none,
   signedHeader 2 systemProducerKey 0 0 (some ⟨1, [1, 2, 3, 4].map producerKey⟩),
   signedHeader 3 systemProducerKey 0 0 none,
   signedHeader 12 (producerKey 2) 0 1 (some ⟨2, [1, 5].map producerKey⟩),
   signedHeader 24 (producerKey 3) 1 1 none,
   signedHeader 36 (producerKey 4) 2 1 none,
   signedHeader 60 (producerKey 2) 0 1 none,
   signedHeader 72 (producerKey 3) 0 1 none,
   signedHeader 84 (producerKey 4) 0 1 none]

/-- Block 11, by producer 5 under the new schedule. -/
def afterPromotionHeader : SignedBlockHeader Nat := signedHeader 108 (producerKey 5) 0 2 none

/-- The irreversible block falls from 5 to 3 in the block after a promotion: producer 1 keeps the
stale block 3 it was given when it joined in block 4, and with two producers the entry a third
of the way up is the lower one. -/
theorem next_dposIrreversibleBlocknum_decreases :
    (do
      let s ← Transition.runAll (fun (s : BlockHeaderState Nat) h => s.next h false)
        (genesis 0 ⟨0⟩) promotionHeaders
      let s' ← s.next afterPromotionHeader false
      pure (s.dposIrreversibleBlocknum, s'.dposIrreversibleBlocknum)) = .ok (5, 3) := by
  decide

/-- Blocks 2 to 6: producers 1 to 4 take over in block 4; producer 1 produces block 5 and
producer 2 block 6, each confirming only its own block. -/
def doubleConfirmHeaders : List (SignedBlockHeader Nat) :=
  [signedHeader 1 systemProducerKey 0 0 none,
   signedHeader 2 systemProducerKey 0 0 (some ⟨1, [1, 2, 3, 4].map producerKey⟩),
   signedHeader 3 systemProducerKey 0 0 none,
   signedHeader 48 (producerKey 1) 0 1 none,
   signedHeader 60 (producerKey 2) 0 1 none]

/-- Block 7 by producer 1, confirming `confirmed` blocks before its own. -/
def doubleConfirmHeader (confirmed : UInt16) : SignedBlockHeader Nat :=
  signedHeader 96 (producerKey 1) confirmed 1 none

/-- Producer 1 last produced block 5, and block 6's state still tracks blocks 5 and 6. Block 7
may confirm at most blocks 6 and 7, and with `confirmed = 2` the guard rejects it; with
`confirmed = 10`, `7 - 10` wraps and the guard passes, and block 7 confirms blocks 7, 6 and 5:
the count of block 5 drops from 2 to 1, a second confirmation by producer 1. -/
theorem next_double_confirms :
    (do
      let s ← Transition.runAll (fun (s : BlockHeaderState Nat) h => s.next h false)
        (genesis 0 ⟨0⟩) doubleConfirmHeaders
      let s' ← s.next (doubleConfirmHeader 10) false
      pure (s.producerToLastProduced.lookup (producerKey 1).producerName, s.blockNum,
        s.confirmCount, (s.next (doubleConfirmHeader 2) false).toBool, s'.confirmCount)) =
      .ok (some 5, 6, [2, 2], false, [1, 1, 2]) := by
  decide

end BlockHeaderState

end Safeos
