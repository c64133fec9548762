import Mathlib.Data.Nat.Digits.Lemmas
import Mathlib.Order.Basic

/-!
# Lists: padding, separators and digits

Facts about lists padded on the right with one element `z`, and about the lexicographic order
`<` on lists over a linear order.

* Padding on the right with a least element `z` neither creates nor breaks an inequality
  between two lists that do not end in `z`, when the padded lists have the same length
  (`lt_iff_append_pad`).
* The part of a list after its last separator `z` that something other than `z` follows
  (`suffixAfterSep`) is the same on the list padded with `z`s, and commutes with a map that
  sends exactly `z` to the new separator (`suffixAfterSep_append_pad`, `suffixAfterSep_map`).
* On lists of digits of one length, the order of the numbers they write, most significant
  digit first, is the lexicographic order (`lt_of_digitValue_lt`), and the number determines
  the digits (`eq_of_digitValue_eq`).
-/

namespace List

section Pad

variable {α : Type*} {z : α}

/-- Two lists of `z`s of one length are equal. -/
theorem pad_eq {d₁ d₂ : List α} (h₁ : ∀ x ∈ d₁, x = z) (h₂ : ∀ x ∈ d₂, x = z)
    (hlen : d₁.length = d₂.length) : d₁ = d₂ := by
  rw [eq_replicate_iff.2 ⟨rfl, h₁⟩, eq_replicate_iff.2 ⟨hlen.symm, h₂⟩]

theorem getLast?_ne_of_cons {a : α} {as : List α} (h : (a :: as).getLast? ≠ some z) :
    as.getLast? ≠ some z := by
  cases as with
  | nil => simp
  | cons b bs => rwa [getLast?_cons_cons] at h

variable [LinearOrder α]

/-- A list of `z`s is below a list as long as it that starts with elements `≥ z` and does not end
in `z`, whatever follows. -/
theorem pad_lt_of_ne_nil {t : List α} (ht : t ≠ []) (hz : ∀ x ∈ t, z ≤ x)
    (hlast : t.getLast? ≠ some z) :
    ∀ {d e : List α}, (∀ x ∈ d, x = z) → d.length = (t ++ e).length → d < t ++ e := by
  induction t with
  | nil => exact absurd rfl ht
  | cons b bs ih =>
    intro d e hd hlen
    obtain ⟨c, d', rfl⟩ : ∃ c d', d = c :: d' := by
      cases d with
      | nil => simp at hlen
      | cons c d' => exact ⟨c, d', rfl⟩
    have hc : c = z := hd c mem_cons_self
    subst hc
    rw [cons_append, cons_lt_cons_iff]
    rcases (hz b mem_cons_self).lt_or_eq with hlt | heq
    · exact .inl hlt
    · -- `b = z`: the list goes on, and so does the comparison
      subst heq
      have hbs : bs ≠ [] := by
        rintro rfl
        exact hlast rfl
      refine .inr ⟨rfl, ih hbs (fun x hx => hz x (mem_cons_of_mem _ hx)) ?_
        (fun x hx => hd x (mem_cons_of_mem _ hx)) (by simpa using hlen)⟩
      cases bs with
      | nil => exact absurd rfl hbs
      | cons b' bs' => rwa [getLast?_cons_cons] at hlast

/-- A list of elements `≥ z` with one of them above `z` is not below a list of `z`s. -/
theorem not_lt_pad {l : List α} (hz : ∀ x ∈ l, z ≤ x) (hne : ∃ x ∈ l, x ≠ z) :
    ∀ {d : List α}, (∀ x ∈ d, x = z) → ¬l < d := by
  induction l with
  | nil => simp at hne
  | cons a as ih =>
    intro d hd hlt
    cases d with
    | nil => exact not_lt_nil _ hlt
    | cons c d' =>
      have hc : c = z := hd c mem_cons_self
      subst hc
      rcases cons_lt_cons_iff.1 hlt with hac | ⟨rfl, htail⟩
      · exact absurd (hz a mem_cons_self) (not_le.2 hac)
      · obtain ⟨x, hx, hxz⟩ := hne
        have hxs : x ∈ as := by
          rcases mem_cons.1 hx with rfl | hx
          · exact absurd rfl hxz
          · exact hx
        exact ih (fun y hy => hz y (mem_cons_of_mem _ hy)) ⟨x, hxs, hxz⟩
          (fun y hy => hd y (mem_cons_of_mem _ hy)) htail

/-- Padding two lists that do not end in the least element `z` with `z`s to one length keeps
their order. -/
theorem lt_iff_append_pad {t₁ t₂ d₁ d₂ : List α} (hz₁ : ∀ x ∈ t₁, z ≤ x) (hz₂ : ∀ x ∈ t₂, z ≤ x)
    (hl₁ : t₁.getLast? ≠ some z) (hl₂ : t₂.getLast? ≠ some z)
    (hd₁ : ∀ x ∈ d₁, x = z) (hd₂ : ∀ x ∈ d₂, x = z)
    (hlen : (t₁ ++ d₁).length = (t₂ ++ d₂).length) : t₁ < t₂ ↔ t₁ ++ d₁ < t₂ ++ d₂ := by
  induction t₁ generalizing t₂ with
  | nil =>
    cases t₂ with
    | nil =>
      rw [nil_append, nil_append, pad_eq hd₁ hd₂ (by simpa using hlen)]
      exact iff_of_false (lt_irrefl _) (lt_irrefl _)
    | cons b bs =>
      exact iff_of_true (nil_lt_cons _ _)
        (pad_lt_of_ne_nil (cons_ne_nil _ _) hz₂ hl₂ hd₁ (by simpa using hlen))
  | cons a as ih =>
    cases t₂ with
    | nil =>
      -- the last element of `a :: as` is above `z`
      have hne : ∃ x ∈ (a :: as) ++ d₁, x ≠ z := by
        obtain ⟨x, hx⟩ := Option.ne_none_iff_exists'.1 (getLast?_eq_none_iff.not.2 (cons_ne_nil a as))
        refine ⟨x, mem_append_left _ (mem_of_getLast? hx), fun hxz => hl₁ (hxz ▸ hx)⟩
      refine iff_of_false (not_lt_nil _) (not_lt_pad (fun x hx => ?_) hne hd₂)
      rcases mem_append.1 hx with hx | hx
      · exact hz₁ x hx
      · exact (hd₁ x hx).symm ▸ le_rfl
    | cons b bs =>
      rw [cons_append, cons_append, cons_lt_cons_iff, cons_lt_cons_iff]
      have htail := @ih bs (fun x hx => hz₁ x (mem_cons_of_mem _ hx))
        (fun x hx => hz₂ x (mem_cons_of_mem _ hx)) (getLast?_ne_of_cons hl₁)
        (getLast?_ne_of_cons hl₂) (by simpa using hlen)
      rw [htail]

end Pad

section Sep

variable {α β : Type*} [DecidableEq α] [DecidableEq β]

/-- The index of the last `z` of a list that an element other than `z` follows. -/
def lastSep (z : α) : List α → Option Nat
  | [] => none
  | x :: xs =>
    match lastSep z xs with
    | some j => some (j + 1)
    | none => if x = z ∧ ∃ y ∈ xs, y ≠ z then some 0 else none

/-- The part of a list after its last `z` that an element other than `z` follows; the whole list
when there is no such `z`. -/
def suffixAfterSep (z : α) (l : List α) : List α :=
  match lastSep z l with
  | some j => l.drop (j + 1)
  | none => l

theorem suffixAfterSep_of_lastSep_some {z : α} {l : List α} {j : Nat} (h : lastSep z l = some j) :
    suffixAfterSep z l = l.drop (j + 1) := by
  rw [suffixAfterSep, h]

theorem suffixAfterSep_of_lastSep_none {z : α} {l : List α} (h : lastSep z l = none) :
    suffixAfterSep z l = l := by
  rw [suffixAfterSep, h]

/-- A separator is followed by something. -/
theorem lastSep_lt_length {z : α} :
    ∀ {l : List α} {j : Nat}, lastSep z l = some j → j + 1 < l.length
  | [], _, h => by simp [lastSep] at h
  | x :: xs, j, h => by
    rw [lastSep] at h
    cases hxs : lastSep z xs with
    | some i =>
      rw [hxs] at h
      cases h
      simpa using lastSep_lt_length hxs
    | none =>
      rw [hxs] at h
      by_cases hx : x = z ∧ ∃ y ∈ xs, y ≠ z
      · rw [if_pos hx] at h
        cases h
        obtain ⟨-, y, hy, -⟩ := hx
        simpa using length_pos_of_mem hy
      · rw [if_neg hx] at h
        cases h

/-- A map that sends exactly `z` to `z'` keeps the separators. -/
theorem lastSep_map {z : α} {z' : β} {f : α → β} (hf : ∀ x, f x = z' ↔ x = z) :
    ∀ l : List α, lastSep z' (l.map f) = lastSep z l
  | [] => rfl
  | x :: xs => by
    have hne : (∃ y ∈ xs.map f, y ≠ z') ↔ ∃ y ∈ xs, y ≠ z := by
      simp only [mem_map, ne_eq, exists_exists_and_eq_and, hf]
    rw [map_cons, lastSep, lastSep, lastSep_map hf xs]
    simp only [hf, hne]

theorem suffixAfterSep_map {z : α} {z' : β} {f : α → β} (hf : ∀ x, f x = z' ↔ x = z)
    (l : List α) : suffixAfterSep z' (l.map f) = (suffixAfterSep z l).map f := by
  rw [suffixAfterSep, suffixAfterSep, lastSep_map hf]
  cases lastSep z l with
  | some j => rw [map_drop]
  | none => rfl

/-- A list of `z`s has no separator. -/
theorem lastSep_pad {z : α} : ∀ {d : List α}, (∀ x ∈ d, x = z) → lastSep z d = none
  | [], _ => rfl
  | y :: ys, hd => by
    have hys : ∀ x ∈ ys, x = z := fun x hx => hd x (mem_cons_of_mem _ hx)
    have hno : ¬(y = z ∧ ∃ x ∈ ys, x ≠ z) := fun ⟨_, x, hx, hxz⟩ => hxz (hys x hx)
    rw [lastSep, lastSep_pad hys, if_neg hno]

/-- Padding with `z`s adds no separator. -/
theorem lastSep_append_pad {z : α} {d : List α} (hd : ∀ x ∈ d, x = z) :
    ∀ l : List α, lastSep z (l ++ d) = lastSep z l
  | [] => lastSep_pad hd
  | x :: xs => by
    have hne : (∃ y ∈ xs ++ d, y ≠ z) ↔ ∃ y ∈ xs, y ≠ z := by
      constructor
      · rintro ⟨y, hy, hyz⟩
        rcases mem_append.1 hy with hy | hy
        · exact ⟨y, hy, hyz⟩
        · exact absurd (hd y hy) hyz
      · rintro ⟨y, hy, hyz⟩
        exact ⟨y, mem_append_left _ hy, hyz⟩
    rw [cons_append, lastSep, lastSep, lastSep_append_pad hd xs]
    simp only [hne]

theorem suffixAfterSep_append_pad {z : α} {d : List α} (hd : ∀ x ∈ d, x = z) (l : List α) :
    suffixAfterSep z (l ++ d) = suffixAfterSep z l ++ d := by
  rw [suffixAfterSep, suffixAfterSep, lastSep_append_pad hd]
  cases h : lastSep z l with
  | some j => exact drop_append_of_le_length (lastSep_lt_length h).le
  | none => rfl

end Sep

section Digits

/-- The number a list of digits in base `b` writes, most significant digit first. -/
def digitValue {b : Nat} (xs : List (Fin b)) : Nat :=
  Nat.ofDigits b (xs.reverse.map Fin.val)

theorem digitValue_cons {b : Nat} (x : Fin b) (xs : List (Fin b)) :
    digitValue (x :: xs) = digitValue xs + b ^ xs.length * x.val := by
  rw [digitValue, digitValue, map_reverse, map_reverse, map_cons,
    Nat.ofDigits_reverse_cons, length_map]

theorem digitValue_append_singleton {b : Nat} (xs : List (Fin b)) (x : Fin b) :
    digitValue (xs ++ [x]) = x.val + b * digitValue xs := by
  rw [digitValue, digitValue, reverse_append, reverse_singleton, singleton_append, map_cons,
    Nat.ofDigits_cons]

theorem digitValue_lt_pow {b : Nat} (hb : 2 ≤ b) (xs : List (Fin b)) :
    digitValue xs < b ^ xs.length := by
  have h := Nat.ofDigits_lt_base_pow_length (b := b) (l := xs.reverse.map Fin.val) (by omega)
    (fun n hn => by
      obtain ⟨x, -, rfl⟩ := mem_map.1 hn
      exact x.isLt)
  rwa [length_map, length_reverse] at h

theorem digitValue_append {b : Nat} (xs ys : List (Fin b)) :
    digitValue (xs ++ ys) = digitValue xs * b ^ ys.length + digitValue ys := by
  rw [digitValue, digitValue, digitValue, reverse_append, map_append, Nat.ofDigits_append,
    length_map, length_reverse, Nat.mul_comm, Nat.add_comm]

theorem digitValue_replicate_zero {b : Nat} (hb : 0 < b) (m : Nat) :
    digitValue (replicate m (⟨0, hb⟩ : Fin b)) = 0 := by
  induction m with
  | zero => rfl
  | succ m ih => rw [replicate_succ, digitValue_cons, ih, Nat.mul_zero]

/-- The last digits of a list write the number modulo the power of the base they span. -/
theorem digitValue_drop {b : Nat} (hb : 2 ≤ b) (xs : List (Fin b)) (m : Nat) :
    digitValue (xs.drop m) = digitValue xs % b ^ (xs.length - m) := by
  have hsplit := digitValue_append (xs.take m) (xs.drop m)
  rw [take_append_drop, length_drop] at hsplit
  rw [hsplit, Nat.add_comm, Nat.add_mul_mod_self_right, Nat.mod_eq_of_lt]
  simpa using digitValue_lt_pow hb (xs.drop m)

/-- Lists of digits of one length: the one that writes the smaller number is lexicographically
below. -/
theorem lt_of_digitValue_lt {b : Nat} (hb : 2 ≤ b) :
    ∀ (xs ys : List (Fin b)), xs.length = ys.length → digitValue xs < digitValue ys → xs < ys
  | [], ys, hlen, hlt => by
    rw [eq_nil_of_length_eq_zero hlen.symm] at hlt
    exact absurd hlt (lt_irrefl _)
  | _ :: _, [], hlen, _ => by simp at hlen
  | x :: xs, y :: ys, hlen, hlt => by
    have htail : xs.length = ys.length := by simpa using hlen
    rw [digitValue_cons, digitValue_cons, ← htail] at hlt
    rw [cons_lt_cons_iff]
    rcases lt_trichotomy x y with hxy | rfl | hyx
    · exact .inl hxy
    · exact .inr ⟨rfl, lt_of_digitValue_lt hb xs ys htail (by omega)⟩
    · -- a larger first digit outweighs whatever follows it
      have hlow := digitValue_lt_pow hb ys
      have hdigit : y.val + 1 ≤ x.val := hyx
      have : digitValue ys + b ^ xs.length * y.val < digitValue xs + b ^ xs.length * x.val :=
        calc digitValue ys + b ^ xs.length * y.val
            < b ^ xs.length * (y.val + 1) := by rw [Nat.mul_add, htail]; omega
          _ ≤ b ^ xs.length * x.val := Nat.mul_le_mul_left _ hdigit
          _ ≤ digitValue xs + b ^ xs.length * x.val := Nat.le_add_left _ _
      omega

/-- Lists of digits of one length that write one number are equal. -/
theorem eq_of_digitValue_eq {b : Nat} (hb : 2 ≤ b) :
    ∀ (xs ys : List (Fin b)), xs.length = ys.length → digitValue xs = digitValue ys → xs = ys
  | [], ys, hlen, _ => (eq_nil_of_length_eq_zero hlen.symm).symm
  | _ :: _, [], hlen, _ => by simp at hlen
  | x :: xs, y :: ys, hlen, heq => by
    have htail : xs.length = ys.length := by simpa using hlen
    rw [digitValue_cons, digitValue_cons, ← htail] at heq
    have hx := digitValue_lt_pow hb xs
    have hy := digitValue_lt_pow hb ys
    rw [← htail] at hy
    -- the leading digits agree, or one side outweighs the other
    have hxy : x = y := by
      rcases lt_trichotomy x y with hlt | h | hgt
      · have : b ^ xs.length * (x.val + 1) ≤ b ^ xs.length * y.val :=
          Nat.mul_le_mul_left _ hlt
        rw [Nat.mul_add] at this
        omega
      · exact h
      · have : b ^ xs.length * (y.val + 1) ≤ b ^ xs.length * x.val :=
          Nat.mul_le_mul_left _ hgt
        rw [Nat.mul_add] at this
        omega
    subst hxy
    rw [eq_of_digitValue_eq hb xs ys htail (by omega)]

end Digits

end List
