import Safeos.Types
import Safeos.Proofs.NameOrder

/-!
# `name_suffix`

`nameSuffix_eq_stringToName_suffixAfterSep`: for every value `n`, `name_suffix(n)` is
`string_to_name` of the part of `name{n}.to_string()` after its last dot that a non-dot follows,
the whole string when there is none: the top-level suffix, which `bidname` compares with the
bidder.

The loop reads the twelve 5-bit slots from the top, which are the digits of `nameDigits`; with
the thirteenth character it is one scan over the thirteen digits (`sepScan`), and it ends with
`remaining_bits_after_last_actual_dot` at the bit position of the last separator
(`nameSuffix_rbald`). The mask and the two shifts then move the digits after it to the front
(`nameDigits_nameSuffix`). The string follows the digits, the character map sending exactly the
digit zero to the dot, and the library's `string_to_name` is the chain's (`stringToName_eq`), so
the suffix reads back through the chain's codec.
-/

namespace Safeos

namespace Eosiolib

/-! ### `string_to_name` is the chain's -/

theorem stringToNameSlot_of_le {str : List Char} {i : Nat} (h : str.length ≤ i) :
    stringToNameSlot str i = 0 := by
  have hc : ¬(i < str.length ∧ i ≤ 12) := fun hi => by omega
  unfold stringToNameSlot
  rw [if_neg hc]
  split
  · exact UInt64.zero_shiftLeft
  · rfl

/-- Past the end of the string the rounds OR in nothing. -/
theorem stringToNameLoop_of_le {str : List Char} :
    ∀ (k i : Nat) (value : UInt64), str.length ≤ i → stringToNameLoop str k i value = value := by
  intro k
  induction k with
  | zero => intro i value _; rfl
  | succ k ih =>
    intro i value h
    rw [stringToNameLoop, stringToNameSlot_of_le h, UInt64.or_zero, ih _ _ (by omega)]

theorem getD_of_drop_eq_cons {str cs : List Char} {i : Nat} {c : Char} (h : str.drop i = c :: cs) :
    i < str.length ∧ str.getD i '.' = c := by
  have hhead := congrArg List.head? h
  rw [List.head?_drop, List.head?_cons] at hhead
  refine ⟨?_, by rw [List.getD_eq_getElem?_getD, hhead]; rfl⟩
  by_contra hlt
  rw [List.getElem?_eq_none (by omega)] at hhead
  cases hhead

/-- The rounds from `i` read the characters from `i` as the chain's loop does. -/
theorem stringToNameLoop_eq_aux (str : List Char) :
    ∀ (k i : Nat) (value : UInt64), i + k = 13 → 1 ≤ k →
      stringToNameLoop str k i value = stringToNameAux (str.drop i) i value := by
  intro k
  induction k with
  | zero => intro i value _ hk; omega
  | succ k ih =>
    intro i value hik _
    rw [stringToNameLoop]
    cases hdrop : str.drop i with
    | nil =>
      have hlen : str.length ≤ i := List.drop_eq_nil_iff.1 hdrop
      rw [stringToNameSlot_of_le hlen, UInt64.or_zero, stringToNameLoop_of_le _ _ _ (by omega)]
      rfl
    | cons c cs =>
      obtain ⟨hlt, hget⟩ := getD_of_drop_eq_cons hdrop
      by_cases hi : i < 12
      · -- a 5-bit slot, and the rest of the loop
        have hcs : str.drop (i + 1) = cs := by
          rw [← List.drop_drop, hdrop]
          rfl
        have hread : i < str.length ∧ i ≤ 12 := ⟨hlt, by omega⟩
        rw [ih (i + 1) _ (by omega) (by omega), hcs, stringToNameAux, stringToNameSlot]
        simp only [if_pos hi, if_pos hread, hget]
        rfl
      · -- the thirteenth character, in the low four bits
        have hk : k = 0 := by omega
        subst hk
        have hread : i < str.length ∧ i ≤ 12 := ⟨hlt, by omega⟩
        rw [stringToNameAux, stringToNameSlot]
        simp only [if_neg hi, if_pos hread, hget]
        rfl

theorem stringToName_eq (str : List Char) : stringToName str = (Safeos.stringToName str).value := by
  rw [stringToName, stringToNameLoop_eq_aux str 13 0 0 rfl (by omega), List.drop_zero]
  rfl

/-! ### `name::to_string` is the thirteen characters with trailing dots cut -/

/-- `trim_right_dots` cuts only dots. -/
theorem trimRightDots_append (str : List Char) :
    ∃ ds, trimRightDots str ++ ds = str ∧ ∀ d ∈ ds, d = '.' := by
  unfold trimRightDots findLastNotOf
  cases h : str.reverse.findIdx? (· != '.') with
  | none => exact ⟨[], List.append_nil _, fun d hd => absurd hd List.not_mem_nil⟩
  | some j =>
    obtain ⟨hj, -, hdots⟩ := List.findIdx?_eq_some_iff_getElem.1 h
    rw [List.length_reverse] at hj
    refine ⟨str.drop (str.length - 1 - j + 1), List.take_append_drop _ _, fun d hd => ?_⟩
    -- every character after the last non-dot is a dot
    obtain ⟨q, hq, rfl⟩ := List.getElem_of_mem hd
    rw [List.getElem_drop]
    have hrev := hdots (str.length - 1 - (str.length - 1 - j + 1 + q))
      (by rw [List.length_drop] at hq; omega)
    rw [List.getElem_reverse] at hrev
    simp only [bne_iff_ne, ne_eq, not_not] at hrev
    rw [List.length_drop] at hq
    convert hrev using 2
    omega

theorem nameToString_append (v : UInt64) :
    ∃ ds, nameToString v ++ ds = nameSlots v ∧ ∀ d ∈ ds, d = '.' :=
  trimRightDots_append (nameSlots v)

/-! ### The top-level suffix, on the digits -/

theorem digitChar_eq_dot_iff : ∀ d : Fin 32, digitChar d = '.' ↔ d = 0 := by
  decide

/-- Up to trailing dots, the suffix of the string is the suffix of the digits. -/
theorem suffixAfterSep_nameToString (n : UInt64) :
    ∃ ds, (nameToString n).suffixAfterSep '.' ++ ds =
      ((nameDigits n).suffixAfterSep 0).map digitChar ∧ ∀ d ∈ ds, d = '.' := by
  obtain ⟨ds, h, hd⟩ := nameToString_append n
  refine ⟨ds, ?_, hd⟩
  rw [← List.suffixAfterSep_append_pad hd, h, nameSlots_eq_map,
    List.suffixAfterSep_map digitChar_eq_dot_iff]

/-- A string that is the slots of `w` but for some trailing dots reads back as `w`. -/
theorem stringToName_of_append_dots {t ds : List Char} {w : UInt64} (h : t ++ ds = nameSlots w)
    (hds : ∀ d ∈ ds, d = '.') : Eosiolib.stringToName t = w := by
  rw [stringToName_eq, Safeos.stringToName, ← stringToNameAux_append_dots t hds, h,
    stringToNameAux_nameSlots]

/-! ### The loop of `name_suffix` -/

/-- The scan `name_suffix` makes of the digits from slot `k`, on `(rbald, tmp)`: a dot at slot `k`
records its bit position `59 - 5k` in `tmp`, any other digit copies `tmp` into both. -/
def sepScan : Nat → List (Fin 32) → Nat × Nat → Nat × Nat
  | _, [], s => s
  | k, d :: ds, s => sepScan (k + 1) ds (if d = 0 then (s.1, 59 - 5 * k) else (s.2, s.2))

/-- After the scan, `rbald` is the position of the last dot that a non-dot follows; with no such
dot, it is `tmp` if a non-dot was passed and is unchanged otherwise. -/
theorem sepScan_fst : ∀ (ds : List (Fin 32)) (k : Nat) (s : Nat × Nat),
    (sepScan k ds s).1 =
      (ds.lastSep 0).elim (if ∃ d ∈ ds, d ≠ 0 then s.2 else s.1) fun j => 59 - 5 * (k + j)
  | [], _, _ => by simp [sepScan, List.lastSep]
  | d :: ds, k, s => by
    rw [sepScan, sepScan_fst ds, List.lastSep]
    cases hsep : ds.lastSep 0 with
    | some j =>
      simp only [Option.elim]
      congr 1
      omega
    | none =>
      -- the new separator is this digit, if it is a dot and a non-dot follows
      by_cases hd : d = 0 <;> by_cases hne : ∃ y ∈ ds, y ≠ 0 <;> simp [hd, hne]

theorem sepScan_append (k : Nat) (s : Nat × Nat) :
    ∀ ds es : List (Fin 32),
      sepScan k (ds ++ es) s = sepScan (k + ds.length) es (sepScan k ds s) := by
  intro ds
  induction ds generalizing k s with
  | nil => intro es; rfl
  | cons d ds ih =>
    intro es
    rw [List.cons_append, sepScan, sepScan, ih, List.length_cons, Nat.add_assoc,
      Nat.add_comm 1]

/-- The 5-bit slot the loop reads at `remaining_bits = 59 - 5k` is digit `k`. -/
theorem slot_toNat_eq_nameDigit (n : UInt64) {k : Nat} (hk : k ≤ 11) :
    ((n >>> (59 - 5 * k).toUInt64) &&& 0x1F).toNat = (nameDigit n k).val := by
  rw [UInt64.toNat_and, UInt64.toNat_shiftRight, show (0x1F : UInt64).toNat = 2 ^ 5 - 1 from rfl,
    Nat.and_two_pow_sub_one_eq_mod, Nat.shiftRight_eq_div_pow, Nat.toUInt64, UInt64.toNat_ofNat',
    Nat.mod_eq_of_lt (by omega : 59 - 5 * k < 2 ^ 64), Nat.mod_eq_of_lt (by omega : 59 - 5 * k < 64)]
  rfl

/-- The loop from `remaining_bits = 59 - 5k` is the scan of the digits from slot `k`. -/
theorem nameSuffixLoop_eq_sepScan (n : UInt64) :
    ∀ m k, k + m = 12 → ∀ r t : UInt32,
      Prod.map UInt32.toNat UInt32.toNat (nameSuffixLoop n (59 - 5 * k) r t) =
        sepScan k (((List.range 12).map (nameDigit n)).drop k) (r.toNat, t.toNat) := by
  intro m
  induction m with
  | zero =>
    intro k hk r t
    have hk : k = 12 := by omega
    subst hk
    rw [nameSuffixLoop, if_neg (by omega), List.drop_eq_nil_of_le (by simp)]
    rfl
  | succ m ih =>
    intro k hk r t
    have hlen : k < ((List.range 12).map (nameDigit n)).length := by simp; omega
    have hc := slot_toNat_eq_nameDigit n (k := k) (by omega)
    rw [nameSuffixLoop, if_pos (by omega), List.drop_eq_getElem_cons hlen, List.getElem_map,
      List.getElem_range, sepScan, show 59 - 5 * k - 5 = 59 - 5 * (k + 1) by omega]
    -- the loop tests the slot against zero as the scan tests the digit
    by_cases hd : nameDigit n k = 0
    · have hz : (n >>> (59 - 5 * k).toUInt64) &&& 0x1F = 0 := by
        apply UInt64.toNat_inj.1
        rw [hc, hd]
        rfl
      simp only [if_pos hz, if_pos hd]
      rw [ih (k + 1) (by omega), Nat.toUInt32, UInt32.toNat_ofNat',
        Nat.mod_eq_of_lt (by omega : 59 - 5 * k < 2 ^ 32)]
    · have hz : ¬(n >>> (59 - 5 * k).toUInt64) &&& 0x1F = 0 := fun h => by
        apply hd
        apply Fin.ext
        rw [← hc, h]
        rfl
      simp only [if_neg hz, if_neg hd]
      rw [ih (k + 1) (by omega)]

theorem thirteenth_toNat (n : UInt64) : (n &&& 0x0F).toNat = n.toNat % 16 := by
  rw [UInt64.toNat_and, show (0x0F : UInt64).toNat = 2 ^ 4 - 1 from rfl,
    Nat.and_two_pow_sub_one_eq_mod]

/-- The `remaining_bits_after_last_actual_dot` that `name_suffix` settles on, the thirteenth
character counted: the position of the last dot that a non-dot follows, or zero. -/
theorem nameSuffix_rbald (n : UInt64) :
    (if n &&& 0x0F ≠ 0 then (nameSuffixLoop n 59 0 0).2 else (nameSuffixLoop n 59 0 0).1).toNat =
      ((nameDigits n).lastSep 0).elim 0 fun j => 59 - 5 * j := by
  have hloop : Prod.map UInt32.toNat UInt32.toNat (nameSuffixLoop n 59 0 0) =
      sepScan 0 ((List.range 12).map (nameDigit n)) (0, 0) :=
    nameSuffixLoop_eq_sepScan n 12 0 rfl 0 0
  have hscan := sepScan_fst (nameDigits n) 0 (0, 0)
  simp only [Nat.zero_add, ite_self] at hscan
  -- the thirteenth character is one more step of the scan
  rw [← hscan, nameDigits, sepScan_append, ← hloop, sepScan, sepScan]
  have h13 := thirteenth_toNat n
  rcases nameSuffixLoop n 59 0 0 with ⟨r, t⟩
  by_cases hd : n.toNat % 16 = 0
  · have hz : n &&& 0x0F = 0 := UInt64.toNat_inj.1 (by rw [h13, hd]; rfl)
    simp [hz, hd]
  · have hz : n &&& 0x0F ≠ 0 := fun h => hd (by rw [← h13, h]; rfl)
    simp [hz, hd, Fin.ext_iff]

/-! ### The value `name_suffix` builds -/

/-- The mask `(1 << r) - 16` keeps bits `4` to `r - 1`. -/
theorem and_two_pow_sub_sixteen (x r : Nat) (hr : 4 ≤ r) :
    x &&& (2 ^ r - 16) = x % 2 ^ r / 16 * 16 := by
  have hmask : 2 ^ r - 16 = (2 ^ (r - 4) - 1) * 2 ^ 4 := by
    rw [Nat.sub_mul, ← pow_add, Nat.sub_add_cancel hr, Nat.one_mul]
    rfl
  apply Nat.eq_of_testBit_eq
  intro i
  rw [Nat.testBit_and, hmask, show x % 2 ^ r / 16 * 16 = x % 2 ^ r / 2 ^ 4 * 2 ^ 4 from rfl,
    Nat.testBit_mul_two_pow, Nat.testBit_mul_two_pow, Nat.testBit_two_pow_sub_one,
    Nat.testBit_div_two_pow, Nat.testBit_mod_two_pow]
  -- bits below 4 are cleared on both sides
  by_cases hi : 4 ≤ i
  · simp [hi, Nat.sub_add_cancel hi, show i - 4 < r - 4 ↔ i < r by omega, Bool.and_comm]
  · simp [hi]

theorem toNat_shiftLeft_of_lt {a b : UInt64} (hb : b.toNat < 64)
    (h : a.toNat * 2 ^ b.toNat < 2 ^ 64) : (a <<< b).toNat = a.toNat * 2 ^ b.toNat := by
  rw [UInt64.toNat_shiftLeft, Nat.mod_eq_of_lt hb, Nat.shiftLeft_eq, Nat.mod_eq_of_lt h]

/-- The `else` branch of `name_suffix` with `remaining_bits_after_last_actual_dot = r` in
`[4, 59]`: bits `4` to `r - 1`, the slots after the dot, go to the top, and the thirteenth
character just below them. -/
theorem suffix_toNat (n : UInt64) (rb : UInt32) (h4 : 4 ≤ rb.toNat) (h59 : rb.toNat ≤ 59) :
    (((n &&& ((1 <<< rb.toUInt64) - 16)) <<< (64 - rb).toUInt64) +
        ((n &&& 0x0F) <<< (64 - rb - 1).toUInt64)).toNat =
      n.toNat % 2 ^ rb.toNat / 16 * 16 * 2 ^ (64 - rb.toNat) + n.toNat % 16 * 2 ^ (63 - rb.toNat) := by
  have hpow : 2 ^ rb.toNat * 2 ^ (64 - rb.toNat) = 2 ^ 64 := by
    rw [← pow_add]
    congr 1
    omega
  have hpow' : 2 ^ (64 - rb.toNat) = 2 * 2 ^ (63 - rb.toNat) := by
    rw [← pow_succ']
    congr 1
    omega
  have h16 : 2 ^ rb.toNat = 16 * 2 ^ (rb.toNat - 4) := by
    rw [show (16 : Nat) = 2 ^ 4 from rfl, ← pow_add]
    congr 1
    omega
  have hpos := Nat.two_pow_pos (rb.toNat - 4)
  have hone : ((1 : UInt64) <<< rb.toUInt64).toNat = 2 ^ rb.toNat := by
    rw [toNat_shiftLeft_of_lt, UInt32.toNat_toUInt64, UInt64.toNat_one, Nat.one_mul]
    · rw [UInt32.toNat_toUInt64]
      omega
    · rw [UInt32.toNat_toUInt64, UInt64.toNat_one, Nat.one_mul]
      exact Nat.pow_lt_pow_right (by omega) (by omega)
  have hmask : ((1 <<< rb.toUInt64) - 16 : UInt64).toNat = 2 ^ rb.toNat - 16 := by
    rw [UInt64.toNat_sub_of_le _ _ (UInt64.le_iff_toNat_le.2 (by rw [hone]; show 16 ≤ _; omega)),
      hone]
    rfl
  have hlow : (n &&& ((1 <<< rb.toUInt64) - 16)).toNat = n.toNat % 2 ^ rb.toNat / 16 * 16 := by
    rw [UInt64.toNat_and, hmask, and_two_pow_sub_sixteen _ _ h4]
  have hsub : ((64 : UInt32) - rb).toNat = 64 - rb.toNat := by
    rw [UInt32.toNat_sub_of_le _ _ (UInt32.le_iff_toNat_le.2 (by show _ ≤ 64; omega))]
    rfl
  have hsub1 : ((64 : UInt32) - rb - 1).toNat = 63 - rb.toNat := by
    rw [UInt32.toNat_sub_of_le _ _ (UInt32.le_iff_toNat_le.2 (by rw [hsub]; show 1 ≤ _; omega)),
      hsub]
    show 64 - rb.toNat - 1 = _
    omega
  -- both parts fit, and below 2^64 together
  have hA : n.toNat % 2 ^ rb.toNat / 16 * 16 * 2 ^ (64 - rb.toNat) ≤
      (2 ^ rb.toNat - 16) * 2 ^ (64 - rb.toNat) := by
    apply Nat.mul_le_mul_right
    have := Nat.mod_lt n.toNat (Nat.two_pow_pos rb.toNat)
    omega
  have hB : n.toNat % 16 * 2 ^ (63 - rb.toNat) ≤ 15 * 2 ^ (63 - rb.toNat) :=
    Nat.mul_le_mul_right _ (by omega)
  rw [Nat.sub_mul, hpow] at hA
  have hlow_pos := Nat.two_pow_pos (63 - rb.toNat)
  have hlow_le : 2 ^ (63 - rb.toNat) ≤ 2 ^ 59 := Nat.pow_le_pow_right (by omega) (by omega)
  have hhi := toNat_shiftLeft_of_lt (a := n &&& ((1 <<< rb.toUInt64) - 16)) (b := (64 - rb).toUInt64)
    (by rw [UInt32.toNat_toUInt64, hsub]; omega) (by rw [hlow, UInt32.toNat_toUInt64, hsub]; omega)
  have hlo := toNat_shiftLeft_of_lt (a := n &&& 0x0F) (b := (64 - rb - 1).toUInt64)
    (by rw [UInt32.toNat_toUInt64, hsub1]; omega)
    (by rw [thirteenth_toNat, UInt32.toNat_toUInt64, hsub1]; omega)
  rw [hlow, UInt32.toNat_toUInt64, hsub] at hhi
  rw [thirteenth_toNat, UInt32.toNat_toUInt64, hsub1] at hlo
  rw [UInt64.toNat_add, hhi, hlo, Nat.mod_eq_of_lt (by omega)]

theorem nameSuffix_of_lastSep_none {n : UInt64} (h : (nameDigits n).lastSep 0 = none) :
    nameSuffix n = n := by
  have hr := nameSuffix_rbald n
  rw [h, Option.elim_none] at hr
  unfold nameSuffix
  generalize nameSuffixLoop n 59 0 0 = p at hr ⊢
  obtain ⟨r, t⟩ := p
  dsimp only at hr ⊢
  generalize (if n &&& 0x0F ≠ 0 then t else r) = rb at hr ⊢
  have h0 : rb = 0 := UInt32.toNat_inj.1 (by rw [hr]; rfl)
  rw [if_pos h0]

theorem nameSuffix_toNat_of_lastSep {n : UInt64} {j : Nat} (h : (nameDigits n).lastSep 0 = some j) :
    (nameSuffix n).toNat =
      n.toNat % 2 ^ (59 - 5 * j) / 16 * 16 * 2 ^ (5 + 5 * j) + n.toNat % 16 * 2 ^ (4 + 5 * j) := by
  have hj := List.lastSep_lt_length h
  rw [length_nameDigits] at hj
  have hr := nameSuffix_rbald n
  rw [h, Option.elim_some] at hr
  unfold nameSuffix
  generalize nameSuffixLoop n 59 0 0 = p at hr ⊢
  obtain ⟨r, t⟩ := p
  dsimp only at hr ⊢
  generalize (if n &&& 0x0F ≠ 0 then t else r) = rb at hr ⊢
  have h0 : rb ≠ 0 := fun h0 => by
    rw [h0] at hr
    exact absurd hr (by show 0 ≠ _; omega)
  rw [if_neg h0, suffix_toNat n rb (by omega) (by omega), hr,
    show 64 - (59 - 5 * j) = 5 + 5 * j by omega, show 63 - (59 - 5 * j) = 4 + 5 * j by omega]

/-- The digits of the value built, one slot `j` at a time. -/
theorem suffix_digits_arith (x j : Nat) (hj : j ≤ 11) :
    (x % 2 ^ (59 - 5 * j) / 16 * 16 * 2 ^ (5 + 5 * j) + x % 16 * 2 ^ (4 + 5 * j)) % 16 +
        32 * ((x % 2 ^ (59 - 5 * j) / 16 * 16 * 2 ^ (5 + 5 * j) + x % 16 * 2 ^ (4 + 5 * j)) / 16) =
      (x % 16 + 32 * (x / 16)) % 32 ^ (12 - j) * 32 ^ (j + 1) := by
  interval_cases j <;> norm_num <;> omega

/-- After the dot at slot `j`, `name_suffix` moves the digits that follow it to the front and
fills the rest with dots. -/
theorem nameDigits_nameSuffix {n : UInt64} {j : Nat} (h : (nameDigits n).lastSep 0 = some j) :
    nameDigits (nameSuffix n) = (nameDigits n).drop (j + 1) ++ List.replicate (j + 1) 0 := by
  have hj := List.lastSep_lt_length h
  rw [length_nameDigits] at hj
  have hz : List.digitValue (List.replicate (j + 1) (0 : Fin 32)) = 0 :=
    List.digitValue_replicate_zero (by omega) _
  apply List.eq_of_digitValue_eq (by omega) _ _ (by simp [length_nameDigits]; omega)
  rw [digitValue_nameDigits, List.digitValue_append, List.digitValue_drop (by omega), hz,
    digitValue_nameDigits, length_nameDigits, List.length_replicate, nameSuffix_toNat_of_lastSep h,
    Nat.add_zero, show 13 - (j + 1) = 12 - j by omega]
  exact suffix_digits_arith n.toNat j (by omega)

/-- `name_suffix` is `string_to_name` of the part of `name::to_string` after its last dot that a
non-dot follows: the top-level suffix, which `bidname` compares with the bidder. -/
theorem nameSuffix_eq_stringToName_suffixAfterSep (n : UInt64) :
    nameSuffix n = Eosiolib.stringToName ((nameToString n).suffixAfterSep '.') := by
  obtain ⟨ds, h, hds⟩ := suffixAfterSep_nameToString n
  cases hsep : (nameDigits n).lastSep 0 with
  | none =>
    -- no dot to cut at: the name is its own suffix
    rw [List.suffixAfterSep_of_lastSep_none hsep] at h
    rw [nameSuffix_of_lastSep_none hsep,
      stringToName_of_append_dots (h.trans (nameSlots_eq_map n).symm) hds]
  | some j =>
    rw [List.suffixAfterSep_of_lastSep_some hsep] at h
    have hslots : (nameToString n).suffixAfterSep '.' ++ (ds ++ List.replicate (j + 1) '.') =
        nameSlots (nameSuffix n) := by
      rw [← List.append_assoc, h, nameSlots_eq_map, nameDigits_nameSuffix hsep, List.map_append,
        List.map_replicate]
      rfl
    refine (stringToName_of_append_dots hslots fun d hd => ?_).symm
    rcases List.mem_append.1 hd with hd | hd
    · exact hds d hd
    · exact List.eq_of_mem_replicate hd

end Eosiolib

end Safeos
