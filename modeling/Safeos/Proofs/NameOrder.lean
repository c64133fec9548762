import Safeos.Proofs.NameCodec
import Safeos.Lib.ListLex
import Mathlib.Data.Char

/-!
# The order of names

The strings of names are ordered, byte by byte, as their values are. The thirteen slots of a
value are its digits, twelve of five bits and one of four, most significant first, so the value
order is the lexicographic order of the digits (`nameDigits_lt_of_lt`); the character map
`.12345a-z` is increasing, so it is also the order of the thirteen characters
`name::operator string` writes (`nameSlots_lt_iff`). Trimming the trailing dots keeps that
order, the dot being below every character of the map (`toString_lt_iff_nameSlots_lt`).
-/

namespace Safeos

/-- The digit in slot `j < 12` of a name value. -/
def nameDigit (v : UInt64) (j : Nat) : Fin 32 :=
  ⟨v.toNat / 2 ^ (59 - 5 * j) % 32, Nat.mod_lt _ (by omega)⟩

/-- The thirteen digits of a name value, first slot first; the last has four bits. -/
def nameDigits (v : UInt64) : List (Fin 32) :=
  (List.range 12).map (nameDigit v) ++ [⟨v.toNat % 16, by omega⟩]

/-- The character `name::operator string` writes for a digit. -/
def digitChar (d : Fin 32) : Char := nameCharmap.getD d '.'

theorem digitChar_strictMono : ∀ x y : Fin 32, x < y → digitChar x < digitChar y := by
  decide

theorem dot_le_digitChar : ∀ d : Fin 32, '.' ≤ digitChar d := by
  decide

theorem nameSlots_eq_map (v : UInt64) : nameSlots v = (nameDigits v).map digitChar := by
  rw [nameSlots_eq, nameDigits, List.map_append, List.map_map]
  rfl

theorem length_nameDigits (v : UInt64) : (nameDigits v).length = 13 := by
  simp [nameDigits]

/-- The first `k` slots write the value's top `5k` bits. -/
theorem digitValue_range (v : UInt64) :
    ∀ k ≤ 12, ((List.range k).map (nameDigit v)).digitValue = v.toNat / 2 ^ (64 - 5 * k) := by
  intro k
  induction k with
  | zero =>
    intro _
    have hv := v.toNat_lt
    rw [List.range_zero, List.map_nil, List.digitValue, List.reverse_nil, List.map_nil,
      Nat.ofDigits_nil, Nat.div_eq_of_lt hv]
  | succ k ih =>
    intro hk
    have hsplit : 2 ^ (64 - 5 * k) = 2 ^ (59 - 5 * k) * 32 := by
      rw [show (32 : Nat) = 2 ^ 5 from rfl, ← pow_add]
      congr 1
      omega
    rw [List.range_succ, List.map_append, List.map_singleton, List.digitValue_append_singleton,
      ih (by omega), hsplit, ← Nat.div_div_eq_div_mul, nameDigit, show 64 - 5 * (k + 1) = 59 - 5 * k
        by omega]
    exact Nat.mod_add_div _ _

theorem digitValue_nameDigits (v : UInt64) :
    (nameDigits v).digitValue = v.toNat % 16 + 32 * (v.toNat / 16) := by
  rw [nameDigits, List.digitValue_append_singleton, digitValue_range v 12 le_rfl]
  rfl

/-- Name values compare as their digits do. -/
theorem nameDigits_lt_of_lt {v w : UInt64} (h : v < w) : nameDigits v < nameDigits w := by
  have hvw : v.toNat < w.toNat := h
  apply List.lt_of_digitValue_lt (by omega) _ _ (by rw [length_nameDigits, length_nameDigits])
  rw [digitValue_nameDigits, digitValue_nameDigits]
  omega

/-- The thirteen characters of two values compare as the values do. -/
theorem nameSlots_lt_iff (v w : UInt64) : nameSlots v < nameSlots w ↔ v < w := by
  have hmono : ∀ {a b : UInt64}, a < b → nameSlots a < nameSlots b := fun h => by
    rw [nameSlots_eq_map, nameSlots_eq_map]
    exact List.map_lt digitChar_strictMono (nameDigits_lt_of_lt h)
  refine ⟨fun h => ?_, hmono⟩
  -- the other way by trichotomy: the order of the strings is asymmetric and irreflexive
  rcases Nat.lt_trichotomy v.toNat w.toNat with hlt | heq | hgt
  · exact hlt
  · rw [UInt64.toNat_inj.1 heq] at h
    exact absurd h (List.lt_irrefl _)
  · exact absurd (hmono hgt) (List.lt_asymm h)

theorem dot_le_of_mem_nameSlots {v : UInt64} {c : Char} (hc : c ∈ nameSlots v) : '.' ≤ c := by
  rw [nameSlots_eq_map] at hc
  obtain ⟨d, -, rfl⟩ := List.mem_map.1 hc
  exact dot_le_digitChar d

/-- `name::operator string` trims every trailing dot. -/
theorem toString_getLast? (n : Name) : n.toString.getLast? ≠ some '.' := by
  rw [Name.toString, List.getLast?_reverse]
  intro h
  have := List.head?_dropWhile_not (· == '.') (nameSlots n.value).reverse
  rw [h] at this
  simp at this

/-- Trimming the trailing dots keeps the order of the thirteen characters. -/
theorem toString_lt_iff_nameSlots_lt (n₁ n₂ : Name) :
    n₁.toString < n₂.toString ↔ nameSlots n₁.value < nameSlots n₂.value := by
  obtain ⟨ds₁, h₁, hd₁⟩ := nameSlots_eq_toString_append n₁
  obtain ⟨ds₂, h₂, hd₂⟩ := nameSlots_eq_toString_append n₂
  have hlen : (n₁.toString ++ ds₁).length = (n₂.toString ++ ds₂).length := by
    rw [← h₁, ← h₂, nameSlots_eq_map, nameSlots_eq_map, List.length_map, List.length_map,
      length_nameDigits, length_nameDigits]
  rw [h₁, h₂]
  refine List.lt_iff_append_pad (fun c hc => ?_) (fun c hc => ?_) (toString_getLast? n₁)
    (toString_getLast? n₂) hd₁ hd₂ hlen
  · exact dot_le_of_mem_nameSlots (h₁ ▸ List.mem_append_left _ hc)
  · exact dot_le_of_mem_nameSlots (h₂ ▸ List.mem_append_left _ hc)

/-- `string_to_name` is increasing on the strings of names: two of them compare, byte by byte,
as the values they are read back as. -/
theorem toString_lt_iff_stringToName_lt (n₁ n₂ : Name) :
    n₁.toString < n₂.toString ↔ stringToName n₁.toString < stringToName n₂.toString := by
  rw [stringToName_toString, stringToName_toString, toString_lt_iff_nameSlots_lt,
    nameSlots_lt_iff]
  rfl

end Safeos
