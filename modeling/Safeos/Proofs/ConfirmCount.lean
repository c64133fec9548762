import Safeos.Proofs.HeaderStateInv

/-!
# `confirm_count`

Each block's state tracks, for its last blocks, how many confirmations each still needs: one
entry per block, the newest last, entry `j` standing for block `block_num - (size - 1 - j)`.
`generate_next` appends the new block's count, dropping the oldest entry once
`maximum_tracked_dpos_confirmations` are tracked, and `set_confirmed` decrements from the newest
entry back, and stops at the first that reaches zero: that block becomes the proposed
irreversible block, and it and every older entry go (`setConfirmed_no_zero`,
`setConfirmed_zero`).

The counts are `uint8_t`. A schedule of at most `max_producers` producers needs at most 84, and
`ConfirmInv` keeps every entry positive, so the decrement never wraps; a schedule of 383 needs
256, which is `0` (`confirm_count_zero_entry`). Only `set_proposed_producers` bounds a schedule,
so the bound is a hypothesis on the headers of a chain.
-/

namespace Safeos
namespace BlockHeaderState

variable {K : Type}

/-! ### The loop of `set_confirmed` -/

theorem uint8_sub_one_eq_zero (c : UInt8) : c - 1 = 0 ↔ c = 1 := by
  have := c.toNat_lt
  rw [← UInt8.toNat_inj, ← UInt8.toNat_inj]
  simp only [UInt8.toNat_sub, UInt8.toNat_one, UInt8.toNat_zero]
  omega

/-- Decrementing the entry at `i` extends the decremented range `[lo, i)` by one. -/
theorem mapIdx_set_getD_sub_one {L : List UInt8} {lo i : ℕ} (hlo : lo ≤ i) (hi : i < L.length) :
    (L.set i (L.getD i 0 - 1)).mapIdx (fun k c => if lo ≤ k ∧ k < i then c - 1 else c) =
      L.mapIdx fun k c => if lo ≤ k ∧ k < i + 1 then c - 1 else c := by
  apply List.ext_getElem (by simp)
  intro k hk₁ hk₂
  simp only [List.getElem_mapIdx, List.getElem_set]
  -- below `i` both decrement, at `i` the set entry is the decremented one, above both keep
  rcases Nat.lt_trichotomy k i with hk | rfl | hk
  · simp [show i ≠ k by omega, hk, show k < i + 1 by omega]
  · simp [List.getElem?_eq_getElem hi, hlo]
  · simp [show i ≠ k by omega, show ¬ k < i by omega, show ¬ k < i + 1 by omega]

theorem mapIdx_sub_one_of_le {L : List UInt8} {lo hi : ℕ} (h : hi ≤ lo) :
    (L.mapIdx fun k c => if lo ≤ k ∧ k < hi then c - 1 else c) = L := by
  apply List.ext_getElem (by simp)
  intro k _ _
  simp only [List.getElem_mapIdx]
  rw [if_neg (by omega)]

/-- The loop of `set_confirmed` from entry `i` with `b` blocks left to confirm, when no entry it
reaches, `[i - b, i)`, is at `1`: it decrements them all, and the proposed irreversible block
stays. -/
theorem setConfirmedLoop_no_zero (s : BlockHeaderState K) (i b : ℕ)
    (hi : i ≤ s.confirmCount.length) (h : ∀ k, i - b ≤ k → k < i → s.confirmCount.getD k 0 ≠ 1) :
    (s.setConfirmedLoop i b).dposProposedIrreversibleBlocknum =
        s.dposProposedIrreversibleBlocknum ∧
      (s.setConfirmedLoop i b).confirmCount =
        s.confirmCount.mapIdx fun k c => if i - b ≤ k ∧ k < i then c - 1 else c := by
  fun_induction setConfirmedLoop s i b with
  | case1 s b => exact ⟨rfl, (mapIdx_sub_one_of_le (Nat.zero_le _)).symm⟩
  | case2 s i => exact ⟨rfl, (mapIdx_sub_one_of_le (by omega)).symm⟩
  | case3 s i b count s₁ hcount =>
    -- entry `i` reaches zero: it was at `1`
    exact absurd ((uint8_sub_one_eq_zero _).1 hcount) (h i (by omega) (by omega))
  | case4 s i b count s₁ hcount ih =>
    have hlen : s₁.confirmCount.length = s.confirmCount.length := List.length_set ..
    obtain ⟨hp, hc⟩ := ih (by omega) fun k hk hki => by
      show (s.confirmCount.set i count).getD k 0 ≠ 1
      rw [List.getD_eq_getElem?_getD, List.getElem?_set_ne (by omega), ← List.getD_eq_getElem?_getD]
      exact h k (by omega) (by omega)
    refine ⟨hp, ?_⟩
    rw [hc, show (i + 1) - (b + 1) = i - b by omega]
    exact mapIdx_set_getD_sub_one (by omega) (by omega)

/-- The loop from entry `i` with `b` blocks left to confirm, when entry `j` of `[i - b, i)` is at
`1` and no newer entry it reaches is: `j` becomes the proposed irreversible block, and what is
left are the entries after it, decremented up to `i`. -/
theorem setConfirmedLoop_zero (s : BlockHeaderState K) (i b j : ℕ)
    (hi : i ≤ s.confirmCount.length) (hj : i - b ≤ j) (hji : j < i)
    (h1 : s.confirmCount.getD j 0 = 1) (h : ∀ k, j < k → k < i → s.confirmCount.getD k 0 ≠ 1) :
    (s.setConfirmedLoop i b).dposProposedIrreversibleBlocknum =
        s.blockNum - (s.confirmCount.length - 1 - j).toUInt32 ∧
      (s.setConfirmedLoop i b).confirmCount =
        (s.confirmCount.mapIdx fun k c => if j < k ∧ k < i then c - 1 else c).drop (j + 1) := by
  fun_induction setConfirmedLoop s i b with
  | case1 => omega
  | case2 => omega
  | case3 s i b count s₁ hcount =>
    have hlen : s₁.confirmCount.length = s.confirmCount.length := List.length_set ..
    -- the entry that reaches zero is the newest at `1`: `j` itself
    obtain rfl : j = i := by
      by_contra hne
      exact h i (by omega) (by omega) ((uint8_sub_one_eq_zero _).1 hcount)
    refine ⟨by rw [← hlen], ?_⟩
    have hnone : (s.confirmCount.mapIdx fun k c => if j < k ∧ k < j.succ then c - 1 else c) =
        s.confirmCount := mapIdx_sub_one_of_le (show j.succ ≤ j + 1 from le_rfl)
    rw [hnone]
    show (if j = s₁.confirmCount.length - 1 then [] else (s.confirmCount.set j count).drop (j + 1)) = _
    split_ifs with hlast
    · rw [List.drop_eq_nil_of_le (by omega)]
    · exact List.drop_set_of_lt (Nat.lt_succ_self j)
  | case4 s i b count s₁ hcount ih =>
    have hlen : s₁.confirmCount.length = s.confirmCount.length := List.length_set ..
    have hget : ∀ k, k ≠ i → s₁.confirmCount.getD k 0 = s.confirmCount.getD k 0 := fun k hk => by
      show (s.confirmCount.set i count).getD k 0 = _
      rw [List.getD_eq_getElem?_getD, List.getElem?_set_ne (Ne.symm hk),
        ← List.getD_eq_getElem?_getD]
    -- entry `i` stays above zero, so `j` is older
    have hne : j ≠ i := fun he => hcount ((uint8_sub_one_eq_zero _).2 (he ▸ h1))
    obtain ⟨hp, hc⟩ := ih (by omega) (by omega) (by omega) (by rw [hget j hne]; exact h1)
      fun k hjk hki => by rw [hget k (by omega)]; exact h k hjk (by omega)
    refine ⟨by rw [hp, hlen], ?_⟩
    rw [hc]
    exact congrArg (List.drop (j + 1)) (mapIdx_set_getD_sub_one (show j + 1 ≤ i by omega) (by omega))

/-! ### `set_confirmed` -/

section SetConfirmed

variable (s : BlockHeaderState K) (n : UInt16)

theorem setConfirmed_no_zero
    (h : ∀ k, s.confirmCount.length - (n.toNat + 1) ≤ k → k < s.confirmCount.length →
      s.confirmCount.getD k 0 ≠ 1) :
    (s.setConfirmed n).dposProposedIrreversibleBlocknum = s.dposProposedIrreversibleBlocknum ∧
      (s.setConfirmed n).confirmCount = s.confirmCount.mapIdx fun k c =>
        if s.confirmCount.length - (n.toNat + 1) ≤ k then c - 1 else c := by
  obtain ⟨hp, hc⟩ := setConfirmedLoop_no_zero { s with header := { s.header with confirmed := n } }
    _ _ le_rfl h
  refine ⟨hp, hc.trans (List.ext_getElem (by simp) fun k hk _ => ?_)⟩
  simp only [List.getElem_mapIdx]
  -- every index is below the length
  simp only [List.length_mapIdx] at hk
  simp [hk]

theorem setConfirmed_zero {j : ℕ} (hj : s.confirmCount.length - (n.toNat + 1) ≤ j)
    (hjl : j < s.confirmCount.length) (h1 : s.confirmCount.getD j 0 = 1)
    (h : ∀ k, j < k → k < s.confirmCount.length → s.confirmCount.getD k 0 ≠ 1) :
    (s.setConfirmed n).dposProposedIrreversibleBlocknum =
        s.blockNum - (s.confirmCount.length - 1 - j).toUInt32 ∧
      (s.setConfirmed n).confirmCount = (s.confirmCount.drop (j + 1)).map (· - 1) := by
  obtain ⟨hp, hc⟩ := setConfirmedLoop_zero { s with header := { s.header with confirmed := n } }
    _ _ j le_rfl hj hjl h1 h
  refine ⟨hp, hc.trans (List.ext_getElem (by simp) fun k hk _ => ?_)⟩
  simp only [List.length_drop, List.length_mapIdx] at hk
  simp only [List.getElem_drop, List.getElem_mapIdx, List.getElem_map]
  rw [if_pos (by omega)]

/-- Either no entry among the last `n + 1` is at `1`, or one is, and the newest such settles
`set_confirmed`. -/
theorem setConfirmed_zero_cases :
    (∀ k, s.confirmCount.length - (n.toNat + 1) ≤ k → k < s.confirmCount.length →
      s.confirmCount.getD k 0 ≠ 1) ∨
    ∃ j, s.confirmCount.length - (n.toNat + 1) ≤ j ∧ j < s.confirmCount.length ∧
      s.confirmCount.getD j 0 = 1 ∧
      ∀ k, j < k → k < s.confirmCount.length → s.confirmCount.getD k 0 ≠ 1 := by
  by_cases hex : ∃ j, (s.confirmCount.length - (n.toNat + 1) ≤ j ∧ j < s.confirmCount.length ∧
      s.confirmCount.getD j 0 = 1)
  · -- the greatest such entry
    classical
    obtain ⟨j, hj⟩ := hex
    have hjle : j ≤ s.confirmCount.length := hj.2.1.le
    have hg := Nat.findGreatest_spec (P := fun j => s.confirmCount.length - (n.toNat + 1) ≤ j ∧
      j < s.confirmCount.length ∧ s.confirmCount.getD j 0 = 1) hjle hj
    refine .inr ⟨_, hg.1, hg.2.1, hg.2.2, fun k hk hkl hk1 => ?_⟩
    exact Nat.findGreatest_is_greatest hk hkl.le ⟨by omega, hkl, hk1⟩
  · exact .inl fun k hk hkl hk1 => hex ⟨k, hk, hkl, hk1⟩

end SetConfirmed

/-! ### The invariant -/

/-- The count `generate_next` gives a new block: the confirmations two thirds of the schedule
give, and one. -/
theorem generateNext_confirmCount {s r : BlockHeaderState K} {when : BlockTimestamp}
    (h : s.generateNext when = .ok r) :
    r.confirmCount =
      (if s.confirmCount.length < Config.maximumTrackedDposConfirmations then s.confirmCount
        else s.confirmCount.tail) ++
        [((s.activeSchedule.producers.length * 2 / 3).toUInt32 + 1).toUInt8] := by
  unfold generateNext at h
  simp only [Except.bind_eq_ok] at h
  obtain ⟨when', -, h⟩ := h
  split at h
  · simp only [Except.pure_eq_ok] at h
    subst h
    dsimp only
    split <;> rfl
  · simp at h

/-- A schedule `set_proposed_producers` accepts needs a count that fits in eight bits. -/
theorem requiredConfs_ne_zero {n : ℕ} (hn : n ≤ Config.maxProducers) :
    ((n * 2 / 3).toUInt32 + 1).toUInt8 ≠ 0 := by
  intro h
  have h' := congrArg UInt8.toNat h
  simp only [UInt32.toNat_toUInt8, UInt32.toNat_add, Nat.toUInt32_eq, UInt32.toNat_ofNat',
    UInt32.toNat_one, UInt8.toNat_zero, Config.maxProducers] at h' hn
  omega

/-- What `confirm_count` keeps along a chain whose schedules `set_proposed_producers` accepted:
it tracks at most `maximum_tracked_dpos_confirmations` blocks, each still needing a confirmation,
all above the proposed irreversible block. -/
structure ConfirmInv (s : BlockHeaderState K) : Prop where
  length_le : s.confirmCount.length ≤ Config.maximumTrackedDposConfirmations
  pos : ∀ c ∈ s.confirmCount, c ≠ 0
  proposed_add_le :
    s.dposProposedIrreversibleBlocknum.toNat + s.confirmCount.length ≤ s.blockNum.toNat
  active_le : s.activeSchedule.producers.length ≤ Config.maxProducers
  pending_le : s.pendingSchedule.producers.length ≤ Config.maxProducers

namespace ConfirmInv

variable {s r : BlockHeaderState K}

theorem generateNext (hs : s.ConfirmInv) (hbn : s.blockNum.toNat + 1 < 2 ^ 32)
    {when : BlockTimestamp} (hr : s.generateNext when = .ok r) : r.ConfirmInv := by
  obtain ⟨_, hbn', hp, -, -, -, hpend, hact, -, -, -, -, hlen⟩ := generateNext_eq_ok hr
  have hcc := generateNext_confirmCount hr
  have hnew := requiredConfs_ne_zero hs.active_le
  refine ⟨?_, fun c hc => ?_, ?_, hact ▸ hs.active_le, hpend ▸ hs.pending_le⟩
  · -- a full `confirm_count` drops its oldest entry
    have := hs.length_le
    rw [hcc]
    split_ifs with hfull
    · simp only [List.length_append, List.length_singleton]
      omega
    · have hpos : 0 < Config.maximumTrackedDposConfirmations := by decide
      simp only [List.length_append, List.length_tail, List.length_singleton]
      omega
  · rw [hcc, List.mem_append, List.mem_singleton] at hc
    rcases hc with hc | rfl
    · split_ifs at hc
      · exact hs.pos c hc
      · exact hs.pos c (List.mem_of_mem_tail hc)
    · exact hnew
  · have := hs.proposed_add_le
    rw [hp, hbn', UInt32.toNat_add, UInt32.toNat_one, Nat.mod_eq_of_lt hbn]
    omega

theorem setConfirmed (hs : s.ConfirmInv) (n : UInt16) : (s.setConfirmed n).ConfirmInv := by
  obtain ⟨-, hadd⟩ := setConfirmed_proposed s n hs.proposed_add_le
  have hlen : (s.setConfirmed n).confirmCount.length ≤ s.confirmCount.length := by
    rcases setConfirmed_cases s n with ⟨-, hl⟩ | ⟨j, -, -, hl⟩ <;> omega
  refine ⟨hlen.trans hs.length_le, fun c hc => ?_, by simpa using hadd,
    by simpa using hs.active_le, by simpa using hs.pending_le⟩
  -- a decremented entry was above `1`, unless it reached zero and went
  rcases setConfirmed_zero_cases s n with hno | ⟨j, hj, hjl, h1, hnewer⟩
  · rw [(setConfirmed_no_zero s n hno).2, List.mem_iff_getElem] at hc
    obtain ⟨k, hk, rfl⟩ := hc
    simp only [List.length_mapIdx] at hk
    have hk0 := hs.pos _ (List.getElem_mem hk)
    simp only [List.getElem_mapIdx]
    split_ifs with hlo
    · have hk1 := hno k hlo hk
      rw [List.getD_eq_getElem _ _ hk] at hk1
      exact fun h0 => hk1 ((uint8_sub_one_eq_zero _).1 h0)
    · exact hk0
  · rw [(setConfirmed_zero s n hj hjl h1 hnewer).2, List.mem_map] at hc
    obtain ⟨c, hc, rfl⟩ := hc
    rw [List.mem_iff_getElem] at hc
    obtain ⟨k, hk, rfl⟩ := hc
    simp only [List.length_drop] at hk
    have hk1 := hnewer (j + 1 + k) (by omega) (by omega)
    rw [List.getD_eq_getElem _ _ (by omega)] at hk1
    simp only [List.getElem_drop]
    exact fun h0 => hk1 ((uint8_sub_one_eq_zero _).1 h0)

theorem maybePromotePending (hs : s.ConfirmInv) : s.maybePromotePending.2.ConfirmInv := by
  rcases maybePromotePending_cases s with ⟨-, hp⟩ | ⟨-, -, hp⟩
  · rw [hp]
    exact hs
  · -- the pending schedule becomes active, and the pending one is emptied
    rw [hp]
    exact ⟨hs.length_le, hs.pos, hs.proposed_add_le, hs.pending_le, Nat.zero_le _⟩

theorem setNewProducers (hs : s.ConfirmInv) {pending : ProducerScheduleType K}
    (hp : pending.producers.length ≤ Config.maxProducers) (hr : s.setNewProducers pending = .ok r) :
    r.ConfirmInv := by
  obtain ⟨-, -, rfl⟩ := setNewProducers_eq_ok hr
  exact ⟨hs.length_le, hs.pos, hs.proposed_add_le, hs.active_le, hp⟩

/-- One header, whose proposed schedule (if any) `set_proposed_producers` would accept, keeps the
invariant. -/
theorem next [DecidableEq K] (hs : s.ConfirmInv) (hbn : s.blockNum.toNat + 1 < 2 ^ 32)
    {h : SignedBlockHeader K} {trust : Bool}
    (hh : ∀ np, h.newProducers = some np → np.producers.length ≤ Config.maxProducers)
    (hn : s.next h trust = .ok r) : r.ConfirmInv := by
  obtain ⟨t, ht, -, -, -, -, -, hcases, -⟩ := next_eq_ok hn
  have hpromoted := ((hs.generateNext hbn ht).setConfirmed h.confirmed).maybePromotePending
  rcases hcases with ⟨-, rfl⟩ | ⟨np, hnp, -, hset⟩
  · exact hpromoted
  · exact hpromoted.setNewProducers (hh np hnp) hset

/-- Entry `j` is block `block_num - (size - 1 - j)`, above the proposed irreversible block. -/
theorem proposed_lt_tracked (hs : s.ConfirmInv) {j : ℕ} (hj : j < s.confirmCount.length) :
    s.dposProposedIrreversibleBlocknum < s.blockNum - (s.confirmCount.length - 1 - j).toUInt32 := by
  have hadd := hs.proposed_add_le
  have hlt := s.blockNum.toNat_lt
  have hd : (s.confirmCount.length - 1 - j).toUInt32.toNat = s.confirmCount.length - 1 - j := by
    simp only [Nat.toUInt32_eq, UInt32.toNat_ofNat']
    omega
  rw [UInt32.lt_iff_toNat_lt, UInt32.toNat_sub_of_le _ _ (UInt32.le_iff_toNat_le.2 (by omega)), hd]
  omega

end ConfirmInv

/-- `confirm_count` along chains of headers from any state with no tracked block, while block
numbers do not wrap and every schedule has at most `max_producers` producers: it tracks at most
`maximum_tracked_dpos_confirmations` blocks, none at a count of zero, and the block of entry `j`,
`block_num - (size - 1 - j)`, lies above the proposed irreversible block. `set_confirmed(n)`
decrements the last `n + 1` entries down to the newest one at `1`, if there is one: its block
becomes the proposed irreversible block, and it and every older entry are removed. -/
theorem confirm_count_tracked [DecidableEq K] :
    (∀ (s₀ s : BlockHeaderState K) (hs : List (SignedBlockHeader K × Bool)),
      s₀.confirmCount = [] → s₀.dposProposedIrreversibleBlocknum ≤ s₀.blockNum →
      s₀.activeSchedule.producers.length ≤ Config.maxProducers →
      s₀.pendingSchedule.producers.length ≤ Config.maxProducers →
      (∀ h ∈ hs, ∀ np, h.1.newProducers = some np → np.producers.length ≤ Config.maxProducers) →
      s₀.blockNum.toNat + hs.length < 2 ^ 32 →
      Transition.runAll (fun s (h : SignedBlockHeader K × Bool) => s.next h.1 h.2) s₀ hs = .ok s →
      s.confirmCount.length ≤ Config.maximumTrackedDposConfirmations ∧
      (∀ c ∈ s.confirmCount, c ≠ 0) ∧
      ∀ j < s.confirmCount.length,
        s.dposProposedIrreversibleBlocknum < s.blockNum - (s.confirmCount.length - 1 - j).toUInt32) ∧
    ∀ (s : BlockHeaderState K) (n : UInt16),
      ((∀ k, s.confirmCount.length - (n.toNat + 1) ≤ k → k < s.confirmCount.length →
          s.confirmCount.getD k 0 ≠ 1) →
        (s.setConfirmed n).dposProposedIrreversibleBlocknum = s.dposProposedIrreversibleBlocknum ∧
        (s.setConfirmed n).confirmCount = s.confirmCount.mapIdx fun k c =>
          if s.confirmCount.length - (n.toNat + 1) ≤ k then c - 1 else c) ∧
      ∀ j, s.confirmCount.length - (n.toNat + 1) ≤ j → j < s.confirmCount.length →
        s.confirmCount.getD j 0 = 1 →
        (∀ k, j < k → k < s.confirmCount.length → s.confirmCount.getD k 0 ≠ 1) →
        (s.setConfirmed n).dposProposedIrreversibleBlocknum =
            s.blockNum - (s.confirmCount.length - 1 - j).toUInt32 ∧
          (s.setConfirmed n).confirmCount = (s.confirmCount.drop (j + 1)).map (· - 1) := by
  refine ⟨fun s₀ s hs h0 hp ha hpend hh hlen hrun => ?_, fun s n =>
    ⟨setConfirmed_no_zero s n, fun j hj hjl h1 h => setConfirmed_zero s n hj hjl h1 h⟩⟩
  have h₀ : s₀.ConfirmInv := by
    refine ⟨by simp [h0], by simp [h0], ?_, ha, hpend⟩
    rw [h0, List.length_nil, Nat.add_zero]
    exact UInt32.le_iff_toNat_le.1 hp
  obtain ⟨hs', -⟩ := runAll_next (fun hs hbn hh hn => hs.next hbn hh hn) h₀ hh hlen hrun
  exact ⟨hs'.length_le, hs'.pos, fun j hj => hs'.proposed_lt_tracked hj⟩

/-- Along the chain of `promotionHeaders`, whose schedules have four and two producers. -/
theorem confirm_count_tracked_promotion :
    ∃ s, Transition.runAll (fun s (h : SignedBlockHeader Nat × Bool) => s.next h.1 h.2)
        (genesis 0 ⟨0⟩) (promotionHeaders.map (·, false)) = .ok s ∧
      s.confirmCount.length ≤ Config.maximumTrackedDposConfirmations ∧
      (∀ c ∈ s.confirmCount, c ≠ 0) ∧
      ∀ j < s.confirmCount.length,
        s.dposProposedIrreversibleBlocknum < s.blockNum - (s.confirmCount.length - 1 - j).toUInt32 :=
  ⟨_, rfl, confirm_count_tracked.1 (genesis 0 ⟨0⟩) _ (promotionHeaders.map (·, false)) rfl
    (by decide) (by decide) (by decide) (by decide) (by decide) rfl⟩

/-- A schedule of 383 producers needs `383 * 2 / 3 + 1 = 256` confirmations, which is `0` in
eight bits: the block's entry starts at zero, and `set_confirmed` wraps it to 255. -/
theorem confirm_count_zero_entry :
    (do
      let r ← ({ genesis 0 ⟨0⟩ with activeSchedule := ⟨0, (List.range 383).map producerKey⟩ } :
        BlockHeaderState Nat).generateNext ⟨⟨1⟩⟩
      pure (r.confirmCount, (r.setConfirmed 0).confirmCount)) = .ok ([0], [255]) := by
  decide +kernel

end BlockHeaderState
end Safeos
