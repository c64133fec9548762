import Safeos.Name
import Mathlib.Data.Nat.Bitwise
import Mathlib.Data.List.TakeWhile

/-!
# The name codec

`name::operator string` writes thirteen characters, one per slot of the value, and
`string_to_name` reads them back into the same slots: every character of the map is decoded to
its own index, and a trailing dot, trimmed or not, fills its slot with zero. So every 64-bit value
survives the round trip, through at most thirteen characters, and `name::set` accepts exactly the
strings that are the string of some name (`name_round_trip`).

The slots are read on `UInt64.toNat`: the name with its low `64 - 5k` bits cleared is built up
by the first `k` characters, one 5-bit slot at a time (`clearLow_or_slot`).
-/

namespace Safeos

/-! ### Bits -/

/-- Clearing the low `a + b` bits of `v` and filling bits `a` to `a + b` back in clears the low
`a`. -/
theorem clearLow_or_slot (v a b : Nat) :
    v / 2 ^ (a + b) * 2 ^ (a + b) ||| v / 2 ^ a % 2 ^ b * 2 ^ a = v / 2 ^ a * 2 ^ a := by
  apply Nat.eq_of_testBit_eq
  intro i
  simp only [Nat.testBit_or, Nat.testBit_mul_two_pow, Nat.testBit_div_two_pow,
    Nat.testBit_mod_two_pow]
  -- bit `i` lies below the slot, in it, or above it
  by_cases ha : a ≤ i
  · by_cases hb : a + b ≤ i
    · simp [ha, hb, Nat.sub_add_cancel hb, Nat.sub_add_cancel ha, show ¬ i - a < b by omega]
    · simp [ha, hb, Nat.sub_add_cancel ha, show i - a < b by omega]
  · simp [ha, show ¬ a + b ≤ i by omega]

/-- A 5-bit symbol placed at bit `m` of the name. -/
theorem slot_toNat {s m : Nat} (hs : s < 32) (hm : m ≤ 59) :
    ((s.toUInt64 &&& 31) <<< m.toUInt64).toNat = s * 2 ^ m := by
  have hand : (s.toUInt64 &&& 31).toNat = s := by
    rw [UInt64.toNat_and, UInt64.toNat_ofNat', show (31 : UInt64).toNat = 2 ^ 5 - 1 from rfl,
      Nat.and_two_pow_sub_one_eq_mod]
    omega
  have hfit : s * 2 ^ m < 2 ^ 64 :=
    calc s * 2 ^ m < 2 ^ 5 * 2 ^ m := Nat.mul_lt_mul_of_pos_right hs (Nat.two_pow_pos m)
      _ = 2 ^ (5 + m) := (pow_add _ _ _).symm
      _ ≤ 2 ^ 64 := Nat.pow_le_pow_right (by omega) (by omega)
  rw [UInt64.toNat_shiftLeft, hand, UInt64.toNat_ofNat', Nat.mod_eq_of_lt (by omega : m < 2 ^ 64),
    Nat.mod_eq_of_lt (by omega : m < 64), Nat.shiftLeft_eq, Nat.mod_eq_of_lt hfit]

/-! ### Characters -/

/-- `char_to_symbol` inverts the character map. -/
theorem charToSymbol_charmap :
    ∀ n : Fin 32, charToSymbol (nameCharmap.getD n '.') = n.val.toUInt64 := by
  decide

/-- The character of slot `j` of `v`, counted from the left among the twelve 5-bit slots. -/
def slotChar (v : UInt64) (j : Nat) : Char :=
  nameCharmap.getD (v.toNat / 2 ^ (59 - 5 * j) % 32) '.'

/-- After `12 - k` slots, the loop of `name::operator string` has written the last of them, with
the first `k` still in `tmp`. -/
theorem nameSlotsAux_eq (v : UInt64) (str : List Char) :
    ∀ k ≤ 12, ∀ tmp : UInt64, tmp.toNat = v.toNat / 2 ^ (64 - 5 * k) →
      nameSlotsAux k tmp str = (List.range k).map (slotChar v) ++ str := by
  intro k
  induction k generalizing str with
  | zero => intros; rfl
  | succ k ih =>
    intro hk tmp htmp
    have hshift : (tmp >>> 5).toNat = v.toNat / 2 ^ (64 - 5 * k) := by
      rw [UInt64.toNat_shiftRight, htmp, show (5 : UInt64).toNat % 64 = 5 from rfl,
        Nat.shiftRight_eq_div_pow, Nat.div_div_eq_div_mul, ← pow_add]
      congr 2
      omega
    have hslot : nameCharmap.getD (tmp &&& 0x1f).toNat '.' = slotChar v k := by
      rw [slotChar, UInt64.toNat_and, htmp, show (0x1f : UInt64).toNat = 2 ^ 5 - 1 from rfl,
        Nat.and_two_pow_sub_one_eq_mod, show 64 - 5 * (k + 1) = 59 - 5 * k by omega]
    rw [nameSlotsAux, ih _ (by omega) _ hshift, hslot, List.range_succ, List.map_append,
      List.append_assoc]
    rfl

theorem nameSlots_eq (v : UInt64) :
    nameSlots v = (List.range 12).map (slotChar v) ++ [nameCharmap.getD (v.toNat % 16) '.'] := by
  rw [nameSlots, nameSlotsAux_eq v _ 12 le_rfl]
  · rw [UInt64.toNat_and, show (0x0f : UInt64).toNat = 2 ^ 4 - 1 from rfl,
      Nat.and_two_pow_sub_one_eq_mod]
  · rw [UInt64.toNat_shiftRight, Nat.shiftRight_eq_div_pow]
    rfl

/-! ### `string_to_name` -/

theorem stringToNameAux_append (l₁ l₂ : List Char) :
    ∀ i acc, i + l₁.length ≤ 12 →
      stringToNameAux (l₁ ++ l₂) i acc =
        stringToNameAux l₂ (i + l₁.length) (stringToNameAux l₁ i acc) := by
  induction l₁ with
  | nil => intros; rfl
  | cons c l ih =>
    intro i acc hi
    simp only [List.cons_append, List.length_cons] at hi ⊢
    rw [stringToNameAux, stringToNameAux, if_pos (by omega), if_pos (by omega), ih _ _ (by omega)]
    congr 1
    omega

/-- Dots add nothing to a name. -/
theorem stringToNameAux_dots {ds : List Char} (hds : ∀ d ∈ ds, d = '.') :
    ∀ i acc, stringToNameAux ds i acc = acc := by
  have hdot : charToSymbol '.' = 0 := by decide
  induction ds with
  | nil => intros; rfl
  | cons d ds ih =>
    intro i acc
    rw [hds d (by simp), stringToNameAux]
    split_ifs
    · rw [ih (fun d hd => hds d (by simp [hd])), hdot]
      simp
    · rw [hdot]
      simp

/-- So do trailing dots, wherever the string ends. -/
theorem stringToNameAux_append_dots (l : List Char) {ds : List Char} (hds : ∀ d ∈ ds, d = '.') :
    ∀ i acc, stringToNameAux (l ++ ds) i acc = stringToNameAux l i acc := by
  induction l with
  | nil => exact stringToNameAux_dots hds
  | cons c l ih =>
    intro i acc
    simp only [List.cons_append, stringToNameAux]
    split_ifs
    · exact ih _ _
    · rfl

/-- The first `k` slot characters give back the value with its low `64 - 5k` bits cleared. -/
theorem stringToNameAux_slots (v : UInt64) :
    ∀ k ≤ 12, (stringToNameAux ((List.range k).map (slotChar v)) 0 0).toNat =
      v.toNat / 2 ^ (64 - 5 * k) * 2 ^ (64 - 5 * k) := by
  intro k
  induction k with
  | zero =>
    intro _
    simp [Nat.div_eq_of_lt v.toNat_lt, stringToNameAux]
  | succ k ih =>
    intro hk
    have hsym : charToSymbol (slotChar v k) = (v.toNat / 2 ^ (59 - 5 * k) % 32).toUInt64 :=
      charToSymbol_charmap ⟨_, Nat.mod_lt _ (by omega)⟩
    rw [List.range_succ, List.map_append, stringToNameAux_append _ _ _ _ (by simp; omega)]
    simp only [List.map_cons, List.map_nil, List.length_map, List.length_range, zero_add,
      stringToNameAux, if_pos (show k < 12 by omega)]
    rw [UInt64.toNat_or, ih (by omega), hsym, slot_toNat (Nat.mod_lt _ (by omega)) (by omega),
      show 64 - 5 * k = 59 - 5 * k + 5 by omega, show 64 - 5 * (k + 1) = 59 - 5 * k by omega]
    exact clearLow_or_slot _ _ 5

/-- The thirteen characters read back to the value. -/
theorem stringToNameAux_nameSlots (v : UInt64) : stringToNameAux (nameSlots v) 0 0 = v := by
  have hsym : charToSymbol (nameCharmap.getD (v.toNat % 16) '.') = (v.toNat % 16).toUInt64 :=
    charToSymbol_charmap ⟨_, by omega⟩
  have hlow : ((v.toNat % 16).toUInt64 &&& 0x0f).toNat = v.toNat % 2 ^ 4 := by
    rw [UInt64.toNat_and, UInt64.toNat_ofNat', show (0x0f : UInt64).toNat = 2 ^ 4 - 1 from rfl,
      Nat.and_two_pow_sub_one_eq_mod]
    omega
  have hlast := clearLow_or_slot v.toNat 0 4
  simp only [zero_add, pow_zero, Nat.div_one, mul_one] at hlast
  rw [nameSlots_eq, stringToNameAux_append _ _ 0 0 (by simp)]
  simp only [List.length_map, List.length_range, zero_add, stringToNameAux, lt_irrefl,
    if_false, hsym]
  rw [← UInt64.toNat_inj, UInt64.toNat_or, stringToNameAux_slots v 12 le_rfl, hlow]
  exact hlast

/-! ### Round trip -/

/-- The string of a name is its thirteen slot characters less a tail of dots. -/
theorem nameSlots_eq_toString_append (n : Name) :
    ∃ ds, nameSlots n.value = n.toString ++ ds ∧ ∀ d ∈ ds, d = '.' := by
  refine ⟨((nameSlots n.value).reverse.takeWhile (· == '.')).reverse, ?_, fun d hd => ?_⟩
  · rw [Name.toString, ← List.reverse_append, List.takeWhile_append_dropWhile, List.reverse_reverse]
  · simpa using List.mem_takeWhile_imp (List.mem_reverse.1 hd)

theorem stringToName_toString (n : Name) : stringToName n.toString = n := by
  obtain ⟨ds, hslots, hds⟩ := nameSlots_eq_toString_append n
  have h := stringToNameAux_nameSlots n.value
  rw [hslots, stringToNameAux_append_dots _ hds] at h
  rw [stringToName, h]

theorem toString_length_le (n : Name) : n.toString.length ≤ 13 := by
  obtain ⟨ds, hslots, -⟩ := nameSlots_eq_toString_append n
  have h13 : (nameSlots n.value).length = 13 := by simp [nameSlots_eq]
  rw [hslots, List.length_append] at h13
  omega

/-- Every value survives `to_string` and `string_to_name`, through at most thirteen characters;
and `name::set` succeeds on a string, storing `n`, iff the string is that of `n`, which is then
`string_to_name` of it. -/
theorem name_round_trip :
    (∀ n : Name, stringToName n.toString = n ∧ n.toString.length ≤ 13) ∧
      ∀ (s : List Char) (n : Name), Name.set s = .ok n ↔ s = n.toString ∧ n = stringToName s := by
  refine ⟨fun n => ⟨stringToName_toString n, toString_length_le n⟩, fun s n => ?_⟩
  constructor
  · intro h
    unfold Name.set at h
    split_ifs at h with hlen hstr
    cases h
    exact ⟨hstr.symm, rfl⟩
  · rintro ⟨rfl, -⟩
    have hlen : min n.toString.length 14 ≤ 13 := by
      have := toString_length_le n
      omega
    rw [Name.set, if_pos hlen, stringToName_toString, if_pos rfl]

end Safeos
