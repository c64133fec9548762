import Safeos.Chain.BlockHeaderState
import Safeos.Lib.Table
import Mathlib.Data.List.GetD

/-!
# Irreversibility along a chain of block header states

What one header does to the numbers `next` keeps (`generateNext_eq_ok`, `setConfirmedLoop_cases`,
`maybePromotePending_cases`, `next_eq_ok`), and the invariant `Inv` they keep over every chain
from genesis that does not wrap the block number:

* every implied irreversible block, and the irreversible block itself, is at most the proposed
  irreversible block, which lies below the blocks `confirm_count` still tracks;
* the irreversible block is at most the one the state's own producer map implies, unless the
  block just promoted a new schedule.

The proposed irreversible block then never decreases, the irreversible block stays at most the
block number, and it never decreases except in the block after a promotion, where a producer
the new schedule keeps may bring back a stale implied block (`next_dposIrreversibleBlocknum_decreases`).
-/

namespace Safeos

namespace BlockHeaderState

variable {K : Type}

/-! ## The producer maps -/

/-- The values of a producer map. -/
def values (m : AList (fun _ : Name => UInt32)) : List UInt32 := m.entries.map (·.2)

theorem mem_values_insert {m : AList (fun _ : Name => UInt32)} {a : Name} {v w : UInt32}
    (hw : w ∈ values (m.insert a v)) : w = v ∨ w ∈ values m := by
  simp only [values, AList.entries_insert, List.map_cons, List.mem_cons] at hw
  rcases hw with rfl | hw
  · exact .inl rfl
  · obtain ⟨e, he, rfl⟩ := List.mem_map.1 hw
    exact .inr (List.mem_map.2 ⟨e, (List.kerase_sublist _ _).subset he, rfl⟩)

theorem mem_values_of_lookup {m : AList (fun _ : Name => UInt32)} {a : Name} {v : UInt32}
    (h : m.lookup a = some v) : v ∈ values m :=
  List.mem_map.2 ⟨⟨a, v⟩, AList.mem_lookup_iff.1 h, rfl⟩

/-- Every value of a rebuilt map is a value of the old map or the newcomers' start. -/
theorem promoteProducerMap_values {P : UInt32 → Prop} (producers : List (ProducerKey K))
    {m : AList (fun _ : Name => UInt32)} {d : UInt32} (hm : ∀ w ∈ values m, P w) (hd : P d) :
    ∀ w ∈ values (promoteProducerMap producers m d), P w := by
  unfold promoteProducerMap
  -- the fold keeps the bound on the map built so far
  suffices h : ∀ acc : AList (fun _ : Name => UInt32), (∀ w ∈ values acc, P w) →
      ∀ w ∈ values (producers.foldl (fun acc pro =>
        acc.insert pro.producerName ((m.lookup pro.producerName).getD d)) acc), P w from
    h ∅ (by simp [values])
  induction producers with
  | nil => exact fun acc hacc => hacc
  | cons pro producers ih =>
    intro acc hacc
    refine ih _ fun w hw => ?_
    rcases mem_values_insert hw with rfl | hw
    · cases hl : m.lookup pro.producerName with
      | none => exact hd
      | some v => exact hm v (mem_values_of_lookup hl)
    · exact hacc w hw

/-! ## `calc_dpos_last_irreversible` -/

/-- The entry a third of the way up a list of block numbers, sorted; `0` for no entries. -/
def dposQuantile (blocknums : List ℕ) : ℕ :=
  if blocknums.length = 0 then 0
  else (blocknums.insertionSort (· ≤ ·)).getD ((blocknums.length - 1) / 3) 0

theorem dposQuantile_le {l : List ℕ} {b : ℕ} (h : ∀ w ∈ l, w ≤ b) : dposQuantile l ≤ b := by
  unfold dposQuantile
  split
  · exact Nat.zero_le _
  · next hlen =>
    exact h _ (List.getD_insertionSort_mem (by omega) 0)

/-- Raising one entry does not lower the quantile. -/
theorem dposQuantile_le_raise (l₁ l₂ : List ℕ) {b v : ℕ} (hb : b ≤ v) :
    dposQuantile (l₁ ++ b :: l₂) ≤ dposQuantile (v :: (l₁ ++ l₂)) := by
  unfold dposQuantile
  simp only [List.length_append, List.length_cons]
  split
  · omega
  · rw [if_neg (by omega)]
    refine List.getD_insertionSort_mono (by simp; omega) (by simp; omega) (fun x => ?_) 0
    simp only [List.countP_append, List.countP_cons]
    by_cases hv : v < x
    · have hbx : b < x := by omega
      simp only [hv, hbx, decide_true, ↓reduceIte]
      omega
    · simp only [hv, decide_false, Bool.false_eq_true, ↓reduceIte]
      omega

/-- An entry above all others does not lower the quantile. -/
theorem dposQuantile_le_cons {l : List ℕ} {v : ℕ} (hv : ∀ w ∈ l, w ≤ v) :
    dposQuantile l ≤ dposQuantile (v :: l) := by
  unfold dposQuantile
  simp only [List.length_cons]
  split
  · exact Nat.zero_le _
  · rw [if_neg (by omega)]
    exact List.getD_insertionSort_le_cons hv (by omega) (by omega) (by omega) 0

/-- `calc_dpos_last_irreversible` is the quantile of the implied blocks, over the naturals. -/
theorem calcDposLastIrreversible_toNat (s : BlockHeaderState K) :
    s.calcDposLastIrreversible.toNat =
      dposQuantile ((values s.producerToLastImpliedIrb).map UInt32.toNat) := by
  unfold calcDposLastIrreversible dposQuantile values
  simp only [List.length_map]
  split
  · rfl
  · rw [← List.map_insertionSort _ _ UInt32.toNat _ (fun a _ b _ => UInt32.le_iff_toNat_le),
      ← UInt32.toNat_zero, List.getD_map]

/-- The irreversible block a map implies is one of its values, or `0`. -/
theorem calcDposLastIrreversible_le {s : BlockHeaderState K} {b : UInt32}
    (h : ∀ w ∈ values s.producerToLastImpliedIrb, w ≤ b) : s.calcDposLastIrreversible ≤ b := by
  rw [UInt32.le_iff_toNat_le, calcDposLastIrreversible_toNat]
  refine dposQuantile_le fun w hw => ?_
  obtain ⟨u, hu, rfl⟩ := List.mem_map.1 hw
  exact UInt32.le_iff_toNat_le.1 (h u hu)

/-- Setting one producer's entry to a value at least every entry does not lower the implied
irreversible block: a replaced entry only rises, and a new entry joins above all others. -/
theorem calcDposLastIrreversible_le_insert {s t : BlockHeaderState K} {a : Name} {v : UInt32}
    (ht : t.producerToLastImpliedIrb = s.producerToLastImpliedIrb.insert a v)
    (hv : ∀ w ∈ values s.producerToLastImpliedIrb, w ≤ v) :
    s.calcDposLastIrreversible ≤ t.calcDposLastIrreversible := by
  rw [UInt32.le_iff_toNat_le, calcDposLastIrreversible_toNat, calcDposLastIrreversible_toNat, ht]
  simp only [values, AList.entries_insert, List.map_cons]
  by_cases ha : a ∈ s.producerToLastImpliedIrb.entries.keys
  · -- `a` had an entry `b ≤ v`, which the new value replaces
    obtain ⟨b, l₁, l₂, -, he, hk⟩ := List.exists_of_kerase ha
    have hb : b ≤ v := hv b (by simp [values, he])
    rw [hk, he]
    simpa only [List.map_append, List.map_cons] using
      dposQuantile_le_raise _ _ (UInt32.le_iff_toNat_le.1 hb)
  · rw [List.kerase_of_notMem_keys ha]
    refine dposQuantile_le_cons fun w hw => ?_
    obtain ⟨e, he, rfl⟩ := List.mem_map.1 (List.map_map ▸ hw)
    exact UInt32.le_iff_toNat_le.1 (hv e.2 (List.mem_map.2 ⟨e, he, rfl⟩))

theorem calcDposLastIrreversible_congr {s t : BlockHeaderState K}
    (h : s.producerToLastImpliedIrb = t.producerToLastImpliedIrb) :
    s.calcDposLastIrreversible = t.calcDposLastIrreversible := by
  unfold calcDposLastIrreversible
  rw [h]

/-! ## What one header does -/

/-- `generate_next`, field by field: the next block number, the producer's entries set to the new
block and the proposed irreversible block, the irreversible block recomputed from them, and one
more block in `confirm_count`. -/
theorem generateNext_eq_ok {s r : BlockHeaderState K} {when : BlockTimestamp}
    (h : s.generateNext when = .ok r) :
    ∃ prokey : ProducerKey K,
      r.blockNum = s.blockNum + 1 ∧
      r.dposProposedIrreversibleBlocknum = s.dposProposedIrreversibleBlocknum ∧
      r.dposIrreversibleBlocknum = r.calcDposLastIrreversible ∧
      r.bftIrreversibleBlocknum = s.bftIrreversibleBlocknum ∧
      r.pendingScheduleLibNum = s.pendingScheduleLibNum ∧
      r.pendingSchedule = s.pendingSchedule ∧
      r.activeSchedule = s.activeSchedule ∧
      r.producerToLastProduced = s.producerToLastProduced.insert prokey.producerName r.blockNum ∧
      r.producerToLastImpliedIrb =
        s.producerToLastImpliedIrb.insert prokey.producerName s.dposProposedIrreversibleBlocknum ∧
      r.header.producer = prokey.producerName ∧
      r.header.scheduleVersion = s.activeSchedule.version ∧
      r.confirmCount.length ≤ s.confirmCount.length + 1 := by
  unfold generateNext at h
  simp only [Except.bind_eq_ok] at h
  obtain ⟨when', -, h⟩ := h
  split at h
  · next prokey _ =>
    simp only [Except.pure_eq_ok] at h
    subst h
    refine ⟨prokey, rfl, rfl, rfl, rfl, rfl, rfl, rfl, rfl, rfl, rfl, rfl, ?_⟩
    dsimp only
    split <;> simp
  · simp at h

/-- The loop of `set_confirmed` changes only `confirm_count` and the proposed irreversible
block. -/
theorem setConfirmedLoop_frame (s : BlockHeaderState K) (i b : ℕ) :
    { s with
      confirmCount := (s.setConfirmedLoop i b).confirmCount
      dposProposedIrreversibleBlocknum := (s.setConfirmedLoop i b).dposProposedIrreversibleBlocknum } =
      s.setConfirmedLoop i b := by
  fun_induction setConfirmedLoop s i b with
  | case1 => rfl
  | case2 => rfl
  | case3 => rfl
  | case4 s i blocksToConfirm count s₁ _ ih => rw [← ih]

/-- Either no count reached zero, and the proposed irreversible block stays while the counts keep
their length; or entry `j` reached zero, became the proposed irreversible block, and only the
entries after it are left. -/
theorem setConfirmedLoop_cases (s : BlockHeaderState K) (i b : ℕ)
    (hi : i ≤ s.confirmCount.length) :
    ((s.setConfirmedLoop i b).dposProposedIrreversibleBlocknum =
        s.dposProposedIrreversibleBlocknum ∧
      (s.setConfirmedLoop i b).confirmCount.length = s.confirmCount.length) ∨
    ∃ j < i, (s.setConfirmedLoop i b).dposProposedIrreversibleBlocknum =
        s.blockNum - (s.confirmCount.length - 1 - j).toUInt32 ∧
      (s.setConfirmedLoop i b).confirmCount.length = s.confirmCount.length - 1 - j := by
  fun_induction setConfirmedLoop s i b with
  | case1 => exact .inl ⟨rfl, rfl⟩
  | case2 => exact .inl ⟨rfl, rfl⟩
  | case3 s i blocksToConfirm count s₁ _ =>
    have hlen : s₁.confirmCount.length = s.confirmCount.length := List.length_set ..
    refine .inr ⟨i, Nat.lt_succ_self i, ?_, ?_⟩
    · show s.blockNum - (s₁.confirmCount.length - 1 - i).toUInt32 = _
      rw [hlen]
    · show (if i = s₁.confirmCount.length - 1 then [] else s₁.confirmCount.drop (i + 1)).length = _
      split <;> simp only [List.length_drop, List.length_nil] <;> omega
  | case4 s i blocksToConfirm count s₁ _ ih =>
    have hlen : s₁.confirmCount.length = s.confirmCount.length := List.length_set ..
    rcases ih (by omega) with h | ⟨j, hj, h⟩
    · exact .inl (hlen ▸ h)
    · exact .inr ⟨j, by omega, hlen ▸ h⟩

/-- `set_confirmed` changes only the header's `confirmed`, `confirm_count` and the proposed
irreversible block. -/
theorem setConfirmed_frame (s : BlockHeaderState K) (n : UInt16) :
    { s with
      header := { s.header with confirmed := n }
      confirmCount := (s.setConfirmed n).confirmCount
      dposProposedIrreversibleBlocknum := (s.setConfirmed n).dposProposedIrreversibleBlocknum } =
      s.setConfirmed n :=
  setConfirmedLoop_frame { s with header := { s.header with confirmed := n } } _ _

theorem setConfirmed_cases (s : BlockHeaderState K) (n : UInt16) :
    ((s.setConfirmed n).dposProposedIrreversibleBlocknum = s.dposProposedIrreversibleBlocknum ∧
      (s.setConfirmed n).confirmCount.length = s.confirmCount.length) ∨
    ∃ j < s.confirmCount.length, (s.setConfirmed n).dposProposedIrreversibleBlocknum =
        s.blockNum - (s.confirmCount.length - 1 - j).toUInt32 ∧
      (s.setConfirmed n).confirmCount.length = s.confirmCount.length - 1 - j :=
  setConfirmedLoop_cases _ _ _ le_rfl

section SetConfirmed

variable (s : BlockHeaderState K) (n : UInt16)

@[simp] theorem setConfirmed_blockNum : (s.setConfirmed n).blockNum = s.blockNum := by
  rw [← setConfirmed_frame]
@[simp] theorem setConfirmed_dposIrreversibleBlocknum :
    (s.setConfirmed n).dposIrreversibleBlocknum = s.dposIrreversibleBlocknum := by
  rw [← setConfirmed_frame]
@[simp] theorem setConfirmed_pendingScheduleLibNum :
    (s.setConfirmed n).pendingScheduleLibNum = s.pendingScheduleLibNum := by
  rw [← setConfirmed_frame]
@[simp] theorem setConfirmed_pendingSchedule :
    (s.setConfirmed n).pendingSchedule = s.pendingSchedule := by
  rw [← setConfirmed_frame]
@[simp] theorem setConfirmed_activeSchedule :
    (s.setConfirmed n).activeSchedule = s.activeSchedule := by
  rw [← setConfirmed_frame]
@[simp] theorem setConfirmed_producerToLastImpliedIrb :
    (s.setConfirmed n).producerToLastImpliedIrb = s.producerToLastImpliedIrb := by
  rw [← setConfirmed_frame]
@[simp] theorem setConfirmed_header_scheduleVersion :
    (s.setConfirmed n).header.scheduleVersion = s.header.scheduleVersion := by
  rw [← setConfirmed_frame]

/-- `set_confirmed` only raises the proposed irreversible block, and keeps it below the blocks
`confirm_count` tracks. -/
theorem setConfirmed_proposed
    (hs : s.dposProposedIrreversibleBlocknum.toNat + s.confirmCount.length ≤ s.blockNum.toNat) :
    s.dposProposedIrreversibleBlocknum.toNat ≤
        (s.setConfirmed n).dposProposedIrreversibleBlocknum.toNat ∧
      (s.setConfirmed n).dposProposedIrreversibleBlocknum.toNat +
        (s.setConfirmed n).confirmCount.length ≤ s.blockNum.toNat := by
  rcases setConfirmed_cases s n with ⟨hp, hl⟩ | ⟨j, hj, hp, hl⟩
  · rw [hp, hl]
    exact ⟨le_rfl, hs⟩
  · -- entry `j` is block `blockNum - (length - 1 - j)`, above every proposed block so far
    have hlt : s.blockNum.toNat < 2 ^ 32 := s.blockNum.toNat_lt
    have hd : (s.confirmCount.length - 1 - j).toUInt32.toNat = s.confirmCount.length - 1 - j := by
      simp only [Nat.toUInt32_eq, UInt32.toNat_ofNat']
      omega
    have hsub : (s.blockNum - (s.confirmCount.length - 1 - j).toUInt32).toNat =
        s.blockNum.toNat - (s.confirmCount.length - 1 - j) := by
      rw [UInt32.toNat_sub_of_le _ _ (UInt32.le_iff_toNat_le.2 (by omega)), hd]
    rw [hp, hl, hsub]
    omega

end SetConfirmed

/-- `maybe_promote_pending` either leaves the state alone, or, once the pending schedule has
producers and its block is irreversible, makes it active with the producer maps rebuilt. -/
theorem maybePromotePending_cases (s : BlockHeaderState K) :
    (¬(s.pendingSchedule.producers ≠ [] ∧
        s.pendingScheduleLibNum ≤ s.dposIrreversibleBlocknum) ∧
      s.maybePromotePending = (false, s)) ∨
    (s.pendingSchedule.producers ≠ [] ∧ s.pendingScheduleLibNum ≤ s.dposIrreversibleBlocknum ∧
      s.maybePromotePending = (true, { s with
        activeSchedule := s.pendingSchedule
        pendingSchedule := { s.pendingSchedule with producers := [] }
        producerToLastProduced := (promoteProducerMap s.pendingSchedule.producers
          s.producerToLastProduced s.dposIrreversibleBlocknum).insert s.header.producer s.blockNum
        producerToLastImpliedIrb := promoteProducerMap s.pendingSchedule.producers
          s.producerToLastImpliedIrb s.dposIrreversibleBlocknum })) := by
  unfold maybePromotePending
  by_cases hc : s.pendingSchedule.producers ≠ [] ∧
      s.pendingScheduleLibNum ≤ s.dposIrreversibleBlocknum
  · refine .inr ⟨hc.1, hc.2, ?_⟩
    rw [if_pos (by simpa [List.length_eq_zero_iff] using hc)]
  · refine .inl ⟨hc, ?_⟩
    rw [if_neg (by simpa [List.length_eq_zero_iff] using hc)]

theorem setNewProducers_eq_ok {s r : BlockHeaderState K} {pending : ProducerScheduleType K}
    (h : s.setNewProducers pending = .ok r) :
    pending.version = s.activeSchedule.version + 1 ∧ s.pendingSchedule.producers = [] ∧
      r = { s with
        header := { s.header with newProducers := some pending }
        pendingSchedule := pending
        pendingScheduleLibNum := s.blockNum } := by
  unfold setNewProducers at h
  simp only [Except.bind_eq_ok, eosioAssert_eq_ok, beq_iff_eq, List.length_eq_zero_iff,
    Except.pure_eq_ok] at h
  obtain ⟨-, hv, -, hp, rfl⟩ := h
  exact ⟨hv, hp, rfl⟩

/-! ## The invariant -/

/-- What the state of every block of a chain from genesis keeps, while block numbers do not
wrap. -/
structure Inv (s : BlockHeaderState K) : Prop where
  /-- every producer implies a block at most the proposed irreversible block -/
  implied_le : ∀ w ∈ values s.producerToLastImpliedIrb, w ≤ s.dposProposedIrreversibleBlocknum
  dpos_le : s.dposIrreversibleBlocknum ≤ s.dposProposedIrreversibleBlocknum
  /-- the blocks `confirm_count` tracks lie above the proposed irreversible block -/
  proposed_add_le :
    s.dposProposedIrreversibleBlocknum.toNat + s.confirmCount.length ≤ s.blockNum.toNat
  /-- a pending schedule of the active version is genesis', before anything is proposed -/
  pending_initial : s.pendingSchedule.producers ≠ [] →
    s.pendingSchedule.version = s.activeSchedule.version →
    s.dposProposedIrreversibleBlocknum = 0 ∧ s.pendingScheduleLibNum = 0
  /-- unless the block promoted a schedule, its irreversible block is what its own producer map
  implies -/
  dpos_le_calc : s.header.scheduleVersion = s.activeSchedule.version →
    s.dposIrreversibleBlocknum ≤ s.calcDposLastIrreversible

theorem Inv.genesis [Inhabited K] (initialKey : K) (initialTimestamp : BlockTimestamp) :
    (genesis initialKey initialTimestamp).Inv where
  implied_le := by simp [BlockHeaderState.genesis, values]
  dpos_le := UInt32.le_refl _
  proposed_add_le := by simp [BlockHeaderState.genesis]
  pending_initial _ _ := ⟨rfl, rfl⟩
  dpos_le_calc _ := UInt32.zero_le

theorem Inv.proposed_le_blockNum {s : BlockHeaderState K} (hs : s.Inv) :
    s.dposProposedIrreversibleBlocknum ≤ s.blockNum :=
  UInt32.le_iff_toNat_le.2 (by have := hs.proposed_add_le; omega)

/-- The template `generate_next` builds keeps the invariant; its block number is one more, and
its irreversible block is at least this block's, unless this block promoted a schedule. -/
theorem Inv.generateNext {s r : BlockHeaderState K} (hs : s.Inv) (hbn : s.blockNum.toNat + 1 < 2 ^ 32)
    {when : BlockTimestamp} (hr : s.generateNext when = .ok r) :
    r.Inv ∧ r.blockNum.toNat = s.blockNum.toNat + 1 ∧
      r.header.scheduleVersion = r.activeSchedule.version ∧
      (s.header.scheduleVersion = s.activeSchedule.version →
        s.dposIrreversibleBlocknum ≤ r.dposIrreversibleBlocknum) := by
  obtain ⟨prokey, hbn', hp, hd, -, hl, hpend, hact, -, himp, -, hsv, hcc⟩ := generateNext_eq_ok hr
  have hbn'' : r.blockNum.toNat = s.blockNum.toNat + 1 := by
    rw [hbn', UInt32.toNat_add, UInt32.toNat_one, Nat.mod_eq_of_lt hbn]
  -- the producer's new entry is the proposed block, so every entry stays below it
  have himp_le : ∀ w ∈ values r.producerToLastImpliedIrb, w ≤ s.dposProposedIrreversibleBlocknum :=
    fun w hw => by
      rw [himp] at hw
      rcases mem_values_insert hw with rfl | hw
      · exact UInt32.le_refl _
      · exact hs.implied_le w hw
  have hcalc := calcDposLastIrreversible_le himp_le
  refine ⟨⟨hp ▸ himp_le, hd ▸ hp ▸ hcalc, ?_, ?_, fun _ => hd ▸ UInt32.le_refl _⟩, hbn'',
    hsv.trans (hact ▸ rfl), fun hv => UInt32.le_trans (hs.dpos_le_calc hv)
      (hd ▸ calcDposLastIrreversible_le_insert himp hs.implied_le)⟩
  · have := hs.proposed_add_le
    rw [hp, hbn'']
    omega
  · rw [hpend, hact, hp, hl]
    exact hs.pending_initial

section Next

variable [DecidableEq K]

/-- `next`, step by step: the header's time is set and later than this block's, the template
for it names the header's producer and schedule version, a producer that produced before
confirms only blocks after it (in `uint32_t` arithmetic), the confirmations and the promotion are
applied, a proposed schedule is recorded unless the block promoted one, and an untrusted header
is signed by the scheduled key. -/
theorem next_eq_ok {s s' : BlockHeaderState K} {h : SignedBlockHeader K} {trust : Bool}
    (hn : s.next h trust = .ok s') :
    ∃ r, s.generateNext h.timestamp = .ok r ∧
      h.timestamp ≠ default ∧ s.header.timestamp < h.timestamp ∧
      r.header.producer = h.producer ∧ r.header.scheduleVersion = h.scheduleVersion ∧
      (∀ last, s.producerToLastProduced.lookup h.producer = some last →
        last < r.blockNum - h.confirmed.toUInt32) ∧
      ((h.newProducers = none ∧ s' = ((r.setConfirmed h.confirmed).maybePromotePending).2) ∨
       ∃ np, h.newProducers = some np ∧
         ((r.setConfirmed h.confirmed).maybePromotePending).1 = false ∧
         ((r.setConfirmed h.confirmed).maybePromotePending).2.setNewProducers np = .ok s') ∧
      (trust = false → s'.blockSigningKey = h.signee) := by
  unfold next at hn
  simp only [Except.bind_eq_ok, eosioAssert_eq_ok] at hn
  obtain ⟨_, hts, _, hlt, r, hr, _, hprod, _, hsv, _, hguard, s'', hnp, _, hsig, hs'⟩ := hn
  simp only [Except.pure_eq_ok] at hs'
  subst hs'
  refine ⟨r, hr, by simpa using hts, of_decide_eq_true hlt, beq_iff_eq.1 hprod, beq_iff_eq.1 hsv,
    fun last hl => ?_, ?_, fun ht => ?_⟩
  · rw [hl] at hguard
    simpa using hguard
  · -- the schedule the header proposes, if any
    cases hh : h.newProducers with
    | none =>
      rw [hh, Except.pure_eq_ok] at hnp
      exact .inl ⟨rfl, hnp.symm⟩
    | some np =>
      rw [hh] at hnp
      simp only [Except.bind_eq_ok, eosioAssert_eq_ok, Bool.not_eq_true'] at hnp
      obtain ⟨-, hp, hset⟩ := hnp
      exact .inr ⟨np, rfl, hp, hset⟩
  · subst ht
    simpa using hsig

/-- What `next` leaves in the numbers and schedules, in terms of the template `r` of
`generate_next`: `set_confirmed` moves the proposed irreversible block and `confirm_count`, and
either nothing is promoted (and a proposed schedule is one version ahead of the active one), or
the pending schedule becomes active with the implied blocks rebuilt over it. -/
theorem next_spec {s s' : BlockHeaderState K} {h : SignedBlockHeader K} {trust : Bool}
    (hn : s.next h trust = .ok s') :
    ∃ r, s.generateNext h.timestamp = .ok r ∧
      s'.blockNum = r.blockNum ∧
      s'.dposIrreversibleBlocknum = r.dposIrreversibleBlocknum ∧
      s'.dposProposedIrreversibleBlocknum =
        (r.setConfirmed h.confirmed).dposProposedIrreversibleBlocknum ∧
      s'.confirmCount = (r.setConfirmed h.confirmed).confirmCount ∧
      s'.header.scheduleVersion = r.header.scheduleVersion ∧
      ((¬(r.pendingSchedule.producers ≠ [] ∧
          r.pendingScheduleLibNum ≤ r.dposIrreversibleBlocknum) ∧
        s'.activeSchedule = r.activeSchedule ∧
        s'.producerToLastImpliedIrb = r.producerToLastImpliedIrb ∧
        (s'.pendingSchedule = r.pendingSchedule ∨
          s'.pendingSchedule.version = r.activeSchedule.version + 1)) ∨
       (r.pendingSchedule.producers ≠ [] ∧
        r.pendingScheduleLibNum ≤ r.dposIrreversibleBlocknum ∧
        s'.activeSchedule = r.pendingSchedule ∧
        s'.pendingSchedule.producers = [] ∧
        s'.producerToLastImpliedIrb = promoteProducerMap r.pendingSchedule.producers
          r.producerToLastImpliedIrb r.dposIrreversibleBlocknum)) := by
  obtain ⟨r, hr, -, -, -, -, -, hnp, -⟩ := next_eq_ok hn
  refine ⟨r, hr, ?_⟩
  rcases maybePromotePending_cases (r.setConfirmed h.confirmed) with ⟨hc, hp⟩ | ⟨hc₁, hc₂, hp⟩
  · -- nothing promoted: the confirmed template, with a proposed schedule if the header has one
    simp only [setConfirmed_pendingSchedule, setConfirmed_pendingScheduleLibNum,
      setConfirmed_dposIrreversibleBlocknum] at hc
    rw [hp] at hnp
    rcases hnp with ⟨-, rfl⟩ | ⟨np, -, -, hset⟩
    · simp [hc]
    · obtain ⟨hv, -, rfl⟩ := setNewProducers_eq_ok hset
      simp [hc, hv]
  · -- the pending schedule was promoted, and the header proposes nothing
    simp only [setConfirmed_pendingSchedule, setConfirmed_pendingScheduleLibNum,
      setConfirmed_dposIrreversibleBlocknum] at hc₁ hc₂
    rw [hp] at hnp
    rcases hnp with ⟨-, rfl⟩ | ⟨np, -, hb, -⟩
    · simp [hc₁, hc₂]
    · exact absurd hb (by simp)

variable {s s' : BlockHeaderState K} {h : SignedBlockHeader K} {trust : Bool}

theorem next_blockNum (hn : s.next h trust = .ok s') : s'.blockNum = s.blockNum + 1 := by
  obtain ⟨r, hr, hbn, -⟩ := next_spec hn
  obtain ⟨-, hbn', -⟩ := generateNext_eq_ok hr
  rw [hbn, hbn']

/-- One header keeps the invariant. -/
theorem Inv.next (hs : s.Inv) (hbn : s.blockNum.toNat + 1 < 2 ^ 32)
    (hn : s.next h trust = .ok s') : s'.Inv := by
  obtain ⟨r, hr, hbn', hd, hp, hcc, hsv, hcases⟩ := next_spec hn
  obtain ⟨hr', -, hrsv, -⟩ := hs.generateNext hbn hr
  obtain ⟨hrp, hrp'⟩ := setConfirmed_proposed r h.confirmed hr'.proposed_add_le
  -- the proposed irreversible block only rises from the template's
  have hle : r.dposProposedIrreversibleBlocknum ≤ s'.dposProposedIrreversibleBlocknum :=
    UInt32.le_iff_toNat_le.2 (hp ▸ hrp)
  have hdpos : s'.dposIrreversibleBlocknum ≤ s'.dposProposedIrreversibleBlocknum :=
    hd ▸ UInt32.le_trans hr'.dpos_le hle
  have hadd : s'.dposProposedIrreversibleBlocknum.toNat + s'.confirmCount.length ≤
      s'.blockNum.toNat := by
    rw [hp, hcc, hbn']
    exact hrp'
  rcases hcases with ⟨hc, hact, himp, hpend⟩ | ⟨hc₁, hc₂, hact, hpend, himp⟩
  · -- nothing promoted
    refine ⟨fun w hw => UInt32.le_trans (hr'.implied_le w (himp ▸ hw)) hle, hdpos, hadd, ?_, ?_⟩
    · rcases hpend with hpend | hpend
      · -- an unchanged pending schedule of the active version would have been promoted
        intro hne hv
        rw [hpend, hact] at hv
        rw [hpend] at hne
        obtain ⟨-, h0⟩ := hr'.pending_initial hne hv
        exact absurd ⟨hne, h0 ▸ UInt32.zero_le⟩ hc
      · intro _ hv
        rw [hpend, hact] at hv
        exact absurd hv (by simp)
    · intro _
      rw [calcDposLastIrreversible_congr himp, hd]
      exact hr'.dpos_le_calc hrsv
  · -- the pending schedule was promoted
    refine ⟨fun w hw => ?_, hdpos, hadd, fun hne => absurd hpend hne, fun hv => ?_⟩
    · rw [himp] at hw
      exact UInt32.le_trans (promoteProducerMap_values _ hr'.implied_le hr'.dpos_le w hw) hle
    · -- a promoted schedule of the same version is genesis': nothing was irreversible yet
      rw [hsv, hact, hrsv] at hv
      obtain ⟨h0, -⟩ := hr'.pending_initial hc₁ hv.symm
      have : s'.dposIrreversibleBlocknum = 0 := by
        have := hd ▸ hr'.dpos_le
        rw [h0] at this
        exact UInt32.le_antisymm this UInt32.zero_le
      rw [this]
      exact UInt32.zero_le

/-- One header never lowers the proposed irreversible block. -/
theorem next_proposed_le (hs : s.Inv) (hbn : s.blockNum.toNat + 1 < 2 ^ 32)
    (hn : s.next h trust = .ok s') :
    s.dposProposedIrreversibleBlocknum ≤ s'.dposProposedIrreversibleBlocknum := by
  obtain ⟨r, hr, -, -, hp, -⟩ := next_spec hn
  obtain ⟨-, -, hrp, -⟩ := generateNext_eq_ok hr
  obtain ⟨hr', -⟩ := hs.generateNext hbn hr
  rw [hp, ← hrp, UInt32.le_iff_toNat_le]
  exact (setConfirmed_proposed r h.confirmed hr'.proposed_add_le).1

/-- One header never lowers the irreversible block, unless the block it builds on promoted a
schedule. -/
theorem next_dpos_le (hs : s.Inv) (hbn : s.blockNum.toNat + 1 < 2 ^ 32)
    (hn : s.next h trust = .ok s') (hv : s.header.scheduleVersion = s.activeSchedule.version) :
    s.dposIrreversibleBlocknum ≤ s'.dposIrreversibleBlocknum := by
  obtain ⟨r, hr, -, hd, -⟩ := next_spec hn
  obtain ⟨-, -, -, hle⟩ := hs.generateNext hbn hr
  exact hd ▸ hle hv

/-- Run rule for chains of headers: a property of states that every header meeting `P` keeps,
while the block number does not wrap, holds at the end of a chain of such headers, one block
number per header. -/
theorem runAll_next {I : BlockHeaderState K → Prop} {P : SignedBlockHeader K × Bool → Prop}
    (hstep : ∀ {s s' : BlockHeaderState K} {h : SignedBlockHeader K × Bool}, I s →
      s.blockNum.toNat + 1 < 2 ^ 32 → P h → s.next h.1 h.2 = .ok s' → I s')
    {s₀ s : BlockHeaderState K} {hs : List (SignedBlockHeader K × Bool)}
    (h₀ : I s₀) (hP : ∀ h ∈ hs, P h) (hlen : s₀.blockNum.toNat + hs.length < 2 ^ 32)
    (hrun : Transition.runAll (fun s (h : SignedBlockHeader K × Bool) => s.next h.1 h.2) s₀ hs =
      .ok s) :
    I s ∧ s.blockNum.toNat = s₀.blockNum.toNat + hs.length := by
  induction hs generalizing s₀ with
  | nil =>
    simp only [Transition.runAll_nil, Except.ok.injEq] at hrun
    subst hrun
    exact ⟨h₀, rfl⟩
  | cons h hs ih =>
    obtain ⟨s₁, h₁, hrun⟩ := Transition.runAll_cons.1 hrun
    simp only [List.length_cons] at hlen
    have hbn₁ : s₁.blockNum.toNat = s₀.blockNum.toNat + 1 := by
      rw [next_blockNum h₁, UInt32.toNat_add, UInt32.toNat_one, Nat.mod_eq_of_lt (by omega)]
    obtain ⟨hs₁, hbn⟩ := ih (hstep h₀ (by omega) (hP h List.mem_cons_self) h₁)
      (fun h' h'mem => hP h' (List.mem_cons_of_mem h h'mem)) (by omega) hrun
    exact ⟨hs₁, by simp only [List.length_cons]; omega⟩

/-- Run rule: a chain that does not wrap the block number keeps the invariant, one block number
per header. -/
theorem Inv.runAll {s₀ s : BlockHeaderState K} {hs : List (SignedBlockHeader K × Bool)}
    (h₀ : s₀.Inv) (hlen : s₀.blockNum.toNat + hs.length < 2 ^ 32)
    (hrun : Transition.runAll (fun s (h : SignedBlockHeader K × Bool) => s.next h.1 h.2) s₀ hs =
      .ok s) :
    s.Inv ∧ s.blockNum.toNat = s₀.blockNum.toNat + hs.length :=
  runAll_next (P := fun _ => True) (fun hs hbn _ hn => hs.next hbn hn) h₀ (fun _ _ => trivial)
    hlen hrun

/-- Along a chain from genesis of fewer than `2^32 - 2` headers, the next header never lowers
the proposed irreversible block and keeps the irreversible block at most its number; it never
lowers the irreversible block either, unless the block it builds on promoted a schedule, whose
header then still names the version before. -/
theorem next_irreversible_blocknums [Inhabited K] (initialKey : K)
    (initialTimestamp : BlockTimestamp) (hs : List (SignedBlockHeader K × Bool))
    (h : SignedBlockHeader K) (trust : Bool) {s s' : BlockHeaderState K}
    (hrun : Transition.runAll (fun s (h : SignedBlockHeader K × Bool) => s.next h.1 h.2)
      (genesis initialKey initialTimestamp) hs = .ok s)
    (hlen : hs.length + 2 < 2 ^ 32) (hnext : s.next h trust = .ok s') :
    s.dposProposedIrreversibleBlocknum ≤ s'.dposProposedIrreversibleBlocknum ∧
      s'.dposIrreversibleBlocknum ≤ s'.blockNum ∧
      (s.header.scheduleVersion = s.activeSchedule.version →
        s.dposIrreversibleBlocknum ≤ s'.dposIrreversibleBlocknum) := by
  have hg : (genesis initialKey initialTimestamp : BlockHeaderState K).blockNum.toNat = 1 := rfl
  obtain ⟨hinv, hbn⟩ := (Inv.genesis initialKey initialTimestamp).runAll (by omega) hrun
  have hbn' : s.blockNum.toNat + 1 < 2 ^ 32 := by omega
  have hinv' := hinv.next hbn' hnext
  exact ⟨next_proposed_le hinv hbn' hnext,
    UInt32.le_trans hinv'.dpos_le hinv'.proposed_le_blockNum, next_dpos_le hinv hbn' hnext⟩

/-- At the chain where the irreversible block falls, the block before promoted a schedule. -/
theorem next_irreversible_blocknums_promotion :
    ∃ s, Transition.runAll (fun s (h : SignedBlockHeader Nat × Bool) => s.next h.1 h.2)
        (genesis 0 ⟨0⟩) (promotionHeaders.map (·, false)) = .ok s ∧
      ∃ s', s.next afterPromotionHeader false = .ok s' ∧
        (s.dposProposedIrreversibleBlocknum ≤ s'.dposProposedIrreversibleBlocknum ∧
          s'.dposIrreversibleBlocknum ≤ s'.blockNum ∧
          (s.header.scheduleVersion = s.activeSchedule.version →
            s.dposIrreversibleBlocknum ≤ s'.dposIrreversibleBlocknum)) := by
  refine ⟨_, rfl, _, rfl, ?_⟩
  exact next_irreversible_blocknums 0 ⟨0⟩ (promotionHeaders.map (·, false)) afterPromotionHeader
    false rfl (by decide) rfl

end Next

end BlockHeaderState

end Safeos
