import Safeos.Chain.ResourceLimits

/-!
# The usage accumulator

`exponential_moving_average_accumulator::add` checks the new units against the fields as they
are, then decays the average to the new ordinal (the product of the decay ratio has a check of
its own), resets `consumed` to the decayed average, and adds the units. Every check comes before
the first write, so a throw leaves the accumulator as it was; and the checks are enough for
every write to be exact on `uint64_t` (`add_exact`). `decayed` is the decayed average as the
comments of the source describe it.
-/

namespace Safeos
namespace ResourceLimits
namespace Accumulator

open EStateM (run_ofExcept run_bind_eq run_get_eq run_modify_eq run_pure_eq)

/-- The average of `a` decayed to `ordinal` over a window of `w` periods: kept at the same
ordinal, scaled by `(w - δ) / w` within the window, gone past it. -/
def decayed (a : Accumulator) (ordinal : UInt32) (w : Nat) : Nat :=
  if ordinal = a.lastOrdinal then a.valueEx.toNat
  else if ordinal.toNat - a.lastOrdinal.toNat < w then
    a.valueEx.toNat * (w - (ordinal.toNat - a.lastOrdinal.toNat)) / w
  else 0

/-- The checks of `add`, which it makes before its first write: the units fit after extending
for precision, `consumed` and the average take their additions, the ordinal does not go back, and
within the window the product of the decay ratio fits. -/
structure Checks (a : Accumulator) (units : UInt64) (ordinal windowSize : UInt32) : Prop where
  units_le : units ≤ maxRawValue
  consumed_fits : uint64Max - a.consumed ≥ units
  valueEx_fits : uint64Max - a.valueEx ≥
    (integerDivideCeil (units.toNat * Config.rateLimitingPrecision) windowSize.toNat).toUInt64
  ordinal_le : a.lastOrdinal ≤ ordinal
  decay_fits : ordinal > a.lastOrdinal →
    a.lastOrdinal.toUInt64 + windowSize.toUInt64 > ordinal.toUInt64 →
    windowSize.toUInt64 - (ordinal - a.lastOrdinal).toUInt64 = 0 ∨
      uint64Max / (windowSize.toUInt64 - (ordinal - a.lastOrdinal).toUInt64) ≥ a.valueEx

/-! ### Arithmetic -/

theorem uint64Max_toNat : uint64Max.toNat = 2 ^ 64 - 1 := rfl

/-- A sum the overflow check let through. -/
theorem toNat_add_of_le {x y : UInt64} (h : uint64Max - x ≥ y) :
    (x + y).toNat = x.toNat + y.toNat := by
  have hx := x.toNat_lt
  rw [ge_iff_le, UInt64.le_iff_toNat_le, UInt64.toNat_sub_of_le _ _
    (UInt64.le_iff_toNat_le.2 (by rw [uint64Max_toNat]; omega)), uint64Max_toNat] at h
  rw [UInt64.toNat_add]
  omega

theorem integerDivideCeil_le (x w : Nat) : integerDivideCeil x w ≤ x := by
  unfold integerDivideCeil
  split_ifs with h
  · have hx : 0 < x := Nat.pos_of_ne_zero fun hx => by simp [hx] at h
    -- a remainder needs a divisor other than one
    rcases w with _ | _ | w
    · simp only [Nat.div_zero]
      omega
    · omega
    · have := Nat.div_lt_self hx (show 1 < w + 1 + 1 by omega)
      omega
  · simpa using Nat.div_le_self x w

theorem average_toNat (a : Accumulator) :
    a.average.toNat = integerDivideCeil a.valueEx.toNat Config.rateLimitingPrecision := by
  have hv := a.valueEx.toNat_lt
  have hp : precision.toNat = Config.rateLimitingPrecision := rfl
  unfold average integerDivideCeil
  rw [UInt64.toNat_add, UInt64.toNat_div, hp]
  simp only [gt_iff_lt, UInt64.lt_iff_toNat_lt, UInt64.toNat_mod, hp]
  split_ifs <;> simp [Config.rateLimitingPrecision] at * <;> omega

theorem mulRatio_eq_ok {v w : UInt64} {r : Ratio} (h : mulRatio v r = .ok w) :
    w.toNat = v.toNat * r.numerator.toNat / r.denominator.toNat := by
  unfold mulRatio at h
  simp only [Except.bind_eq_ok, eosioAssert_eq_ok, Except.pure_eq_ok, exists_const] at h
  obtain ⟨hc, rfl⟩ := h
  -- the check is that the product does not wrap
  have hfit : v.toNat * r.numerator.toNat ≤ 2 ^ 64 - 1 := by
    rcases Bool.or_eq_true_iff.1 hc with hn | hle
    · rw [beq_iff_eq.1 hn]
      simp
    · rw [decide_eq_true_iff, ge_iff_le, UInt64.le_iff_toNat_le, UInt64.toNat_div,
        uint64Max_toNat] at hle
      rcases Nat.eq_zero_or_pos r.numerator.toNat with h0 | hpos
      · rw [h0]
        simp
      · exact (Nat.le_div_iff_mul_le hpos).1 hle
  rw [UInt64.toNat_div, UInt64.toNat_mul, Nat.mod_eq_of_lt (by omega)]

/-- `operator*` completes exactly when its check passes. -/
theorem mulRatio_ok_iff {v : UInt64} {r : Ratio} :
    (∃ w, mulRatio v r = .ok w) ↔ r.numerator = 0 ∨ uint64Max / r.numerator ≥ v := by
  unfold mulRatio
  simp [eosioAssert_eq_ok]

theorem units_mul_le {units : UInt64} (h : units ≤ maxRawValue) :
    units.toNat * Config.rateLimitingPrecision ≤ 2 ^ 64 - 1 := by
  rw [UInt64.le_iff_toNat_le] at h
  exact (Nat.le_div_iff_mul_le (by decide)).1 h

/-- The contribution of units that passed the first check never fails its cast. -/
theorem downgradeCast_contrib {units : UInt64} (h : units ≤ maxRawValue) (w : Nat) :
    downgradeCast uint64Max.toNat (integerDivideCeil (units.toNat * precision.toNat) w) =
      .ok (integerDivideCeil (units.toNat * Config.rateLimitingPrecision) w) := by
  have hfit : integerDivideCeil (units.toNat * Config.rateLimitingPrecision) w ≤ 2 ^ 64 - 1 :=
    (integerDivideCeil_le _ w).trans (units_mul_le h)
  unfold downgradeCast
  rw [show precision.toNat = Config.rateLimitingPrecision from rfl, uint64Max_toNat,
    decide_eq_true hfit, eosioAssert_true]
  rfl

/-- The decayed average and the contribution fit, by the check made on the average before its
decay. -/
theorem toNat_add_contrib {v v' : UInt64} {c : Nat} (h : uint64Max - v ≥ c.toUInt64)
    (hv : v'.toNat ≤ v.toNat) (hc : c ≤ 2 ^ 64 - 1) : (v' + c.toUInt64).toNat = v'.toNat + c := by
  have hct : c.toUInt64.toNat = c := by
    rw [UInt64.toNat_ofNat']
    omega
  have hvt := v.toNat_lt
  rw [ge_iff_le, UInt64.le_iff_toNat_le, hct, UInt64.toNat_sub_of_le _ _
    (UInt64.le_iff_toNat_le.2 (by rw [uint64Max_toNat]; omega)), uint64Max_toNat] at h
  rw [UInt64.toNat_add, hct]
  omega

/-- `consumed` reset to the average, and the new units, fit: both are below `2^64 / Precision`
or so. -/
theorem toNat_average_add {a : Accumulator} {units : UInt64} (h : units ≤ maxRawValue) :
    (a.average + units).toNat =
      integerDivideCeil a.valueEx.toNat Config.rateLimitingPrecision + units.toNat := by
  have hu := units_mul_le h
  have hv := a.valueEx.toNat_lt
  have ha : integerDivideCeil a.valueEx.toNat Config.rateLimitingPrecision ≤
      a.valueEx.toNat / Config.rateLimitingPrecision + 1 := by
    unfold integerDivideCeil
    split_ifs <;> omega
  rw [UInt64.toNat_add, average_toNat]
  simp only [Config.rateLimitingPrecision] at *
  omega

/-- Within the window, the decay ratio is `(W - δ) / W`, computed without wrapping. -/
theorem decay_numerator {a : Accumulator} {ordinal windowSize : UInt32}
    (h6 : ordinal > a.lastOrdinal)
    (h7 : a.lastOrdinal.toUInt64 + windowSize.toUInt64 > ordinal.toUInt64) :
    ordinal.toNat - a.lastOrdinal.toNat < windowSize.toNat ∧
      (windowSize.toUInt64 - (ordinal - a.lastOrdinal).toUInt64).toNat =
        windowSize.toNat - (ordinal.toNat - a.lastOrdinal.toNat) := by
  have hl := a.lastOrdinal.toNat_lt
  have hw := windowSize.toNat_lt
  rw [gt_iff_lt, UInt32.lt_iff_toNat_lt] at h6
  rw [gt_iff_lt, UInt64.lt_iff_toNat_lt, UInt64.toNat_add, UInt32.toNat_toUInt64,
    UInt32.toNat_toUInt64, UInt32.toNat_toUInt64, Nat.mod_eq_of_lt (by omega)] at h7
  have hδ : (ordinal - a.lastOrdinal).toNat = ordinal.toNat - a.lastOrdinal.toNat :=
    UInt32.toNat_sub_of_le _ _ (UInt32.le_iff_toNat_le.2 (by omega))
  refine ⟨by omega, ?_⟩
  rw [UInt64.toNat_sub_of_le _ _
      (UInt64.le_iff_toNat_le.2 (by simp only [UInt32.toNat_toUInt64]; omega)),
    UInt32.toNat_toUInt64, UInt32.toNat_toUInt64, hδ]

/-! ### `add` -/

/-- What `add` can do: throw from the state it started in, when a check fails, or, when the checks
pass, complete at `ordinal` with the average decayed and the units added. -/
theorem add_cases (a : Accumulator) (units : UInt64) (ordinal windowSize : UInt32) :
    (¬ Checks a units ordinal windowSize ∧ ∃ e, (add units ordinal windowSize).run a = .error e a) ∨
      Checks a units ordinal windowSize ∧ ∃ a', (add units ordinal windowSize).run a = .ok () a' ∧
        a'.lastOrdinal = ordinal ∧
        a'.valueEx.toNat = decayed a ordinal windowSize.toNat +
          integerDivideCeil (units.toNat * Config.rateLimitingPrecision) windowSize.toNat ∧
        a'.consumed.toNat = (if ordinal = a.lastOrdinal then a.consumed.toNat
          else integerDivideCeil (decayed a ordinal windowSize.toNat) Config.rateLimitingPrecision) +
            units.toNat := by
  -- the checks, in order: each one that fails throws before any field is written
  by_cases h1 : units ≤ maxRawValue
  swap
  · left
    refine ⟨fun hc => h1 hc.units_le, ?_⟩
    simp only [add, run_bind_eq, run_get_eq, run_ofExcept, decide_eq_false h1, eosioAssert_false]
    exact ⟨_, rfl⟩
  by_cases h2 : uint64Max - a.consumed ≥ units
  swap
  · left
    refine ⟨fun hc => h2 hc.consumed_fits, ?_⟩
    simp only [add, run_bind_eq, run_get_eq, run_ofExcept, decide_eq_true h1, eosioAssert_true,
      decide_eq_false h2, eosioAssert_false]
    exact ⟨_, rfl⟩
  set c := integerDivideCeil (units.toNat * Config.rateLimitingPrecision) windowSize.toNat with hc
  have hcfit : c ≤ 2 ^ 64 - 1 := (integerDivideCeil_le _ _).trans (units_mul_le h1)
  by_cases h4 : uint64Max - a.valueEx ≥ c.toUInt64
  swap
  · left
    refine ⟨fun hc => h4 hc.valueEx_fits, ?_⟩
    simp only [add, run_bind_eq, run_get_eq, run_ofExcept, decide_eq_true h1, eosioAssert_true,
      decide_eq_true h2, downgradeCast_contrib h1, ← hc, decide_eq_false h4, eosioAssert_false]
    exact ⟨_, rfl⟩
  by_cases h5 : a.lastOrdinal = ordinal
  · -- the same ordinal: the units are added to the average as it is
    right
    refine ⟨⟨h1, h2, h4, h5 ▸ UInt32.le_refl _, fun h6 => absurd h5 (UInt32.ne_of_lt h6)⟩,
      ⟨ordinal, a.valueEx + c.toUInt64, a.consumed + units⟩, ?_, rfl, ?_, ?_⟩
    · simp only [add, run_bind_eq, run_get_eq, run_ofExcept, decide_eq_true h1, eosioAssert_true,
        decide_eq_true h2, downgradeCast_contrib h1, ← hc, decide_eq_true h4, h5, bne_self_eq_false,
        Bool.false_eq_true, if_false, run_pure_eq, run_modify_eq]
    · rw [toNat_add_contrib h4 le_rfl hcfit, decayed, if_pos h5.symm]
    · rw [toNat_add_of_le h2, if_pos h5.symm]
  by_cases h6 : ordinal > a.lastOrdinal
  swap
  · -- an earlier ordinal
    left
    refine ⟨fun hc => h6 (UInt32.lt_of_le_of_ne hc.ordinal_le h5), ?_⟩
    simp only [add, run_bind_eq, run_get_eq, run_ofExcept, decide_eq_true h1, eosioAssert_true,
      decide_eq_true h2, downgradeCast_contrib h1, ← hc, decide_eq_true h4, bne_iff_ne, ne_eq, h5,
      not_false_eq_true, if_true, decide_eq_false h6, eosioAssert_false]
    exact ⟨_, rfl⟩
  have hne : ordinal ≠ a.lastOrdinal := Ne.symm h5
  by_cases h7 : a.lastOrdinal.toUInt64 + windowSize.toUInt64 > ordinal.toUInt64
  · -- within the window: the average decays by `(W - δ) / W`, unless that product overflows
    obtain ⟨hδ, hnum⟩ := decay_numerator h6 h7
    have hrun : ∀ r, mulRatio a.valueEx
        ⟨windowSize.toUInt64 - (ordinal - a.lastOrdinal).toUInt64, windowSize.toUInt64⟩ = r →
        (add units ordinal windowSize).run a = match r with
          | .ok w => .ok () ⟨ordinal, w + c.toUInt64, average ⟨ordinal, w, a.consumed⟩ + units⟩
          | .error e => .error e a := by
      rintro r hm
      cases r <;>
      simp only [add, run_bind_eq, run_get_eq, run_ofExcept, decide_eq_true h1,
        decide_eq_true h2, eosioAssert_true, downgradeCast_contrib h1, ← hc, decide_eq_true h4,
        bne_iff_ne, ne_eq, h5, not_false_eq_true, decide_eq_true h6, h7, if_true, hm,
        run_modify_eq]
    cases hm : mulRatio a.valueEx
        ⟨windowSize.toUInt64 - (ordinal - a.lastOrdinal).toUInt64, windowSize.toUInt64⟩ with
    | error e =>
      -- the product's own check failed
      refine .inl ⟨fun hc => ?_, e, hrun _ hm⟩
      obtain ⟨w, hw⟩ := (mulRatio_ok_iff (v := a.valueEx)
        (r := ⟨windowSize.toUInt64 - (ordinal - a.lastOrdinal).toUInt64, windowSize.toUInt64⟩)).2
        (hc.decay_fits h6 h7)
      rw [hw] at hm
      cases hm
    | ok w =>
      have hw : w.toNat = decayed a ordinal windowSize.toNat := by
        rw [mulRatio_eq_ok hm, hnum, UInt32.toNat_toUInt64, decayed, if_neg hne, if_pos hδ]
      have hwle : w.toNat ≤ a.valueEx.toNat := by
        rw [mulRatio_eq_ok hm, hnum, UInt32.toNat_toUInt64]
        exact Nat.div_le_of_le_mul (by rw [Nat.mul_comm]; exact Nat.mul_le_mul_right _ (Nat.sub_le _ _))
      right
      refine ⟨⟨h1, h2, h4, UInt32.le_of_lt h6, fun _ _ => mulRatio_ok_iff.1 ⟨w, hm⟩⟩,
        ⟨ordinal, w + c.toUInt64, average ⟨ordinal, w, a.consumed⟩ + units⟩, hrun _ hm, rfl, ?_, ?_⟩
      · rw [toNat_add_contrib h4 hwle hcfit, hw]
      · rw [toNat_average_add h1, if_neg hne, hw]
  · -- past the window: the average is gone
    have hdec : decayed a ordinal windowSize.toNat = 0 := by
      have hl := a.lastOrdinal.toNat_lt
      have hlt : a.lastOrdinal.toNat < ordinal.toNat := UInt32.lt_iff_toNat_lt.1 h6
      rw [gt_iff_lt, UInt64.lt_iff_toNat_lt, UInt64.toNat_add, UInt32.toNat_toUInt64,
        UInt32.toNat_toUInt64, UInt32.toNat_toUInt64,
        Nat.mod_eq_of_lt (by have := windowSize.toNat_lt; omega)] at h7
      rw [decayed, if_neg hne, if_neg (by omega)]
    right
    refine ⟨⟨h1, h2, h4, UInt32.le_of_lt h6, fun _ h => absurd h h7⟩,
      ⟨ordinal, 0 + c.toUInt64, average ⟨ordinal, 0, a.consumed⟩ + units⟩, ?_, rfl, ?_, ?_⟩
    · simp only [add, run_bind_eq, run_get_eq, run_ofExcept, decide_eq_true h1, eosioAssert_true,
        decide_eq_true h2, downgradeCast_contrib h1, ← hc, decide_eq_true h4, bne_iff_ne, ne_eq, h5,
        not_false_eq_true, if_true, decide_eq_true h6, h7, if_false, run_modify_eq]
    · rw [toNat_add_contrib h4 (by simp) hcfit, hdec]
      rfl
    · rw [toNat_average_add h1, if_neg hne, hdec]
      rfl

/-- `add` is atomic and exact: a call either throws and leaves all three fields as they were, or
completes at `ordinal` with the decayed average plus `⌈units · Precision / W⌉` and with
`consumed` (reset to the decayed average at a new ordinal) plus the units, none of it wrapped; it
completes exactly when its checks pass, and a call at an earlier ordinal throws. -/
theorem add_exact (a : Accumulator) (units : UInt64) (ordinal windowSize : UInt32) :
    ((∃ e, (add units ordinal windowSize).run a = .error e a) ∨
      ∃ a', (add units ordinal windowSize).run a = .ok () a' ∧ a'.lastOrdinal = ordinal ∧
        a'.valueEx.toNat = decayed a ordinal windowSize.toNat +
          integerDivideCeil (units.toNat * Config.rateLimitingPrecision) windowSize.toNat ∧
        a'.consumed.toNat = (if ordinal = a.lastOrdinal then a.consumed.toNat
          else integerDivideCeil (decayed a ordinal windowSize.toNat) Config.rateLimitingPrecision) +
            units.toNat) ∧
      ((∃ a', (add units ordinal windowSize).run a = .ok () a') ↔
        Checks a units ordinal windowSize) ∧
      (ordinal < a.lastOrdinal → ∃ e, (add units ordinal windowSize).run a = .error e a) := by
  rcases add_cases a units ordinal windowSize with ⟨hfail, herr⟩ | ⟨hchecks, h⟩
  · -- a failed check: no completion, whatever the ordinal
    obtain ⟨e, he⟩ := herr
    refine ⟨.inl ⟨e, he⟩, ⟨fun ⟨a', ha'⟩ => ?_, fun hc => absurd hc hfail⟩, fun _ => ⟨e, he⟩⟩
    rw [he] at ha'
    cases ha'
  · refine ⟨.inr h, ⟨fun _ => hchecks, fun _ => ?_⟩, fun hlt => ?_⟩
    · obtain ⟨a', hok, -⟩ := h
      exact ⟨a', hok⟩
    · exact absurd hchecks.ordinal_le (UInt32.not_le.2 hlt)

end Accumulator
end ResourceLimits
end Safeos
