import Mathlib.Data.List.AList
import Mathlib.Algebra.Order.BigOperators.Group.List
import Mathlib.Tactic.Abel

/-!
# Sums over keyed tables

A table whose rows are found by a unique key is an `AList`. Conservation statements sum a
quantity over all rows; this file gives the effect on such a sum of the three ways a table
changes: a row is added under a fresh key, a row is replaced, a row is erased. Each is stated
with the old row as an addend on the left, so that it holds in any commutative monoid.
-/

namespace List

variable {α : Type*} {β : α → Type*} [DecidableEq α] {M : Type*} [AddCommMonoid M]

/-- Summing over a list of rows: the row under `a` plus the rows left by `kerase a`. -/
theorem sum_map_kerase (f : (a : α) → β a → M) {a : α} {b : β a} :
    ∀ {l : List (Sigma β)}, l.dlookup a = some b →
      (l.map fun e => f e.1 e.2).sum = f a b + ((l.kerase a).map fun e => f e.1 e.2).sum
  | [], h => by simp at h
  | ⟨a', b'⟩ :: l, h => by
    by_cases ha : a = a'
    · subst ha
      rw [dlookup_cons_eq] at h
      cases h
      simp [kerase_cons_eq]
    · rw [dlookup_cons_ne _ _ ha] at h
      rw [kerase_cons_ne ha, map_cons, sum_cons, map_cons, sum_cons,
        sum_map_kerase f h, add_left_comm]

end List

namespace AList

variable {α : Type*} {β : α → Type*} [DecidableEq α] {M : Type*} [AddCommMonoid M]

/-- The sum of `f` over the rows of `s`. -/
def sum (f : (a : α) → β a → M) (s : AList β) : M :=
  (s.entries.map fun e => f e.1 e.2).sum

omit [DecidableEq α] in
@[simp] theorem sum_empty (f : (a : α) → β a → M) : (∅ : AList β).sum f = 0 := rfl

/-- A row under a fresh key adds its value. -/
theorem sum_insert_of_notMem (f : (a : α) → β a → M) {s : AList β} {a : α} (b : β a) (h : a ∉ s) :
    (s.insert a b).sum f = f a b + s.sum f := by
  have hk : a ∉ s.entries.keys := h
  simp only [sum, entries_insert, List.kerase_of_notMem_keys hk, List.map_cons, List.sum_cons]

/-- Replacing a row trades its old value for the new one. -/
theorem sum_insert_of_lookup (f : (a : α) → β a → M) {s : AList β} {a : α} {b₀ : β a} (b : β a)
    (h : s.lookup a = some b₀) : (s.insert a b).sum f + f a b₀ = f a b + s.sum f := by
  simp only [sum, entries_insert, List.map_cons, List.sum_cons]
  rw [List.sum_map_kerase f h, add_assoc, add_comm _ (f a b₀)]

omit [AddCommMonoid M] in
theorem entries_erase (a : α) (s : AList β) : (s.erase a).entries = s.entries.kerase a := rfl

/-- Erasing a row removes its value. -/
theorem sum_erase_of_lookup (f : (a : α) → β a → M) {s : AList β} {a : α} {b₀ : β a}
    (h : s.lookup a = some b₀) : (s.erase a).sum f + f a b₀ = s.sum f := by
  simp only [sum, entries_erase]
  rw [List.sum_map_kerase f h, add_comm]

theorem sum_erase_of_notMem (f : (a : α) → β a → M) {s : AList β} {a : α} (h : a ∉ s) :
    (s.erase a).sum f = s.sum f := by
  have hk : a ∉ s.entries.keys := h
  simp only [sum, entries_erase, List.kerase_of_notMem_keys hk]

/-- Rows outside the support of `f` do not count. -/
theorem sum_congr {f g : (a : α) → β a → M} {s : AList β}
    (h : ∀ a b, s.lookup a = some b → f a b = g a b) : s.sum f = s.sum g := by
  simp only [sum]
  congr 1
  refine List.map_congr_left fun e he => h e.1 e.2 ?_
  exact (mem_lookup_iff).2 he

theorem sum_nonneg [Preorder M] [AddLeftMono M]
    {f : (a : α) → β a → M} {s : AList β} (h : ∀ a b, s.lookup a = some b → 0 ≤ f a b) :
    0 ≤ s.sum f :=
  List.sum_nonneg fun x hx => by
    obtain ⟨e, he, rfl⟩ := List.mem_map.1 hx
    exact h e.1 e.2 (mem_lookup_iff.2 he)

/-- The sum depends on the rows only, not on the order in which the entries are kept. -/
theorem sum_eq_of_lookup_eq (f : (a : α) → β a → M) {s t : AList β}
    (h : ∀ a, s.lookup a = t.lookup a) : s.sum f = t.sum f := by
  have hp : s.entries.Perm t.entries :=
    List.lookup_ext s.nodupKeys t.nodupKeys fun a b => by
      show b ∈ s.lookup a ↔ b ∈ t.lookup a
      rw [h]
  exact (hp.map _).sum_eq

/-- A table changed only under `a`: the sum trades the old row's value for the new row's, a
missing row counting as zero. Inserting, replacing and erasing are all of this kind. -/
theorem sum_update (f : (a : α) → β a → M) {s t : AList β} {a : α}
    (h : ∀ a', a' ≠ a → t.lookup a' = s.lookup a') :
    t.sum f + (s.lookup a).elim 0 (f a) = (t.lookup a).elim 0 (f a) + s.sum f := by
  cases ht : t.lookup a with
  | none =>
    have : t.sum f = (s.erase a).sum f := sum_eq_of_lookup_eq f fun a' => by
      by_cases ha : a' = a
      · subst ha; rw [ht, lookup_erase]
      · rw [lookup_erase_ne ha, h a' ha]
    rw [this]
    cases hs : s.lookup a with
    | none => simp [sum_erase_of_notMem f (lookup_eq_none.1 hs)]
    | some b₀ => simpa using sum_erase_of_lookup f hs
  | some b =>
    have : t.sum f = (s.insert a b).sum f := sum_eq_of_lookup_eq f fun a' => by
      by_cases ha : a' = a
      · subst ha; rw [ht, lookup_insert]
      · rw [lookup_insert_ne ha, h a' ha]
    rw [this]
    cases hs : s.lookup a with
    | none => simp [sum_insert_of_notMem f b (lookup_eq_none.1 hs)]
    | some b₀ => simpa using sum_insert_of_lookup f b hs

/-- A change under a key where `f` vanishes leaves the sum. -/
theorem sum_eq_of_frame_of_zero (f : (a : α) → β a → M) {s t : AList β} {a : α}
    (hf : ∀ b, f a b = 0) (h : ∀ a', a' ≠ a → t.lookup a' = s.lookup a') : t.sum f = s.sum f := by
  have hzero : ∀ o : Option (β a), o.elim 0 (f a) = 0 := by
    intro o
    cases o with
    | none => rfl
    | some b => exact hf b
  have := sum_update f h
  rwa [hzero, hzero, add_zero, zero_add] at this

/-- A row of a nonnegative sum counts no more than the sum. -/
theorem le_sum_of_lookup [Preorder M] [AddLeftMono M] {f : (a : α) → β a → M} {s : AList β}
    (hf : ∀ a b, 0 ≤ f a b) {a : α} {b : β a} (h : s.lookup a = some b) : f a b ≤ s.sum f := by
  rw [← sum_erase_of_lookup f h]
  exact le_add_of_nonneg_left (sum_nonneg fun a b _ => hf a b)

section Length

omit [AddCommMonoid M]

/-- Erasing a present key removes one row. -/
theorem length_erase_of_mem {s : AList β} {a : α} (h : a ∈ s) :
    (s.erase a).entries.length = s.entries.length - 1 := by
  have hkeys := congrArg List.length (List.keys_kerase (a := a) (l := s.entries))
  rw [List.length_erase_of_mem (show a ∈ s.entries.keys from AList.mem_keys.1 h)] at hkeys
  simp only [List.keys, List.length_map] at hkeys
  rw [entries_erase, hkeys]

/-- Inserting under a present key replaces its row. -/
theorem length_insert_of_mem {s : AList β} {a : α} (b : β a) (h : a ∈ s) :
    (s.insert a b).entries.length = s.entries.length := by
  have hpos := List.length_pos_of_mem (AList.mem_keys.1 h)
  simp only [AList.keys, List.keys, List.length_map] at hpos
  rw [entries_insert, List.length_cons, ← entries_erase, length_erase_of_mem h]
  omega

/-- Inserting under a fresh key adds a row. -/
theorem length_insert_of_notMem {s : AList β} {a : α} (b : β a) (h : a ∉ s) :
    (s.insert a b).entries.length = s.entries.length + 1 := by
  rw [entries_insert, List.kerase_of_notMem_keys h, List.length_cons]

end Length

section Plain

variable {ν : Type*}

/-- A row found after erasing `k` was there before, under another key. -/
theorem lookup_of_lookup_erase {t : AList (fun _ : α => ν)} {k k' : α} {b : ν}
    (h : (t.erase k).lookup k' = some b) : k' ≠ k ∧ t.lookup k' = some b := by
  by_cases hk : k' = k
  · subst hk; simp [lookup_erase] at h
  · exact ⟨hk, by rwa [lookup_erase_ne hk] at h⟩

/-- A row found after inserting `b` under `k` is `b`, or was there before under another key. -/
theorem lookup_insert_cases {t : AList (fun _ : α => ν)} {k k' : α} {b b' : ν}
    (h : (t.insert k b).lookup k' = some b') : (k' = k ∧ b' = b) ∨ (k' ≠ k ∧ t.lookup k' = some b') := by
  by_cases hk : k' = k
  · subst hk; simp [lookup_insert] at h; exact .inl ⟨rfl, h.symm⟩
  · exact .inr ⟨hk, by rwa [lookup_insert_ne hk] at h⟩

end Plain

/-! ## Shifting the value of one row

A ledger update writes one row: it adds a row, rewrites it, or erases it. What a sum over the
table sees of that is one number, how much the row's value grew (a missing row counting as
zero). `Shift v t t' a d` records exactly that, and `Shift.sum` carries it to any sum. -/

section Shift

variable {ν : Type*} {N : Type*} [AddCommGroup N]

/-- `t'` is `t` changed only in the row under `a`, whose value `v` (zero for no row) grew by
`d`. -/
structure Shift (v : α → ν → N) (t t' : AList (fun _ : α => ν)) (a : α) (d : N) : Prop where
  frame : ∀ a', a' ≠ a → t'.lookup a' = t.lookup a'
  value : (t'.lookup a).elim 0 (v a) = (t.lookup a).elim 0 (v a) + d

variable {v w : α → ν → N} {t t' : AList (fun _ : α => ν)} {a : α} {d e : N}

theorem shift_insert {b : ν} (h : v a b = (t.lookup a).elim 0 (v a) + d) :
    Shift v t (t.insert a b) a d :=
  ⟨fun _ ha => lookup_insert_ne ha, by rw [lookup_insert]; exact h⟩

theorem shift_erase (h : 0 = (t.lookup a).elim 0 (v a) + d) : Shift v t (t.erase a) a d :=
  ⟨fun _ ha => lookup_erase_ne ha, by rw [lookup_erase]; exact h⟩

theorem shift_self : Shift v t t a 0 := ⟨fun _ _ => rfl, (add_zero _).symm⟩

namespace Shift

/-- The value of every row after the change. -/
theorem lookup (h : Shift v t t' a d) (a' : α) :
    (t'.lookup a').elim 0 (v a') = (t.lookup a').elim 0 (v a') + if a' = a then d else 0 := by
  by_cases ha : a' = a
  · subst ha; rw [h.value, if_pos rfl]
  · rw [h.frame a' ha, if_neg ha, add_zero]

/-- A property of every row holds after the change if it held before and holds of the row
under `a` afterwards. -/
theorem lookup_of (h : Shift v t t' a d) {P : α → ν → Prop}
    (hold : ∀ k b, t.lookup k = some b → P k b) (hnew : ∀ b, t'.lookup a = some b → P a b)
    (k : α) (b : ν) (hb : t'.lookup k = some b) : P k b := by
  by_cases hk : k = a
  · subst hk; exact hnew b hb
  · rw [h.frame k hk] at hb; exact hold k b hb

/-- The sum over the table grows by `d`. -/
theorem sum (h : Shift v t t' a d) : t'.sum v = t.sum v + d := by
  have := sum_update v h.frame
  rw [h.value] at this
  calc t'.sum v = t'.sum v + (t.lookup a).elim 0 (v a) - (t.lookup a).elim 0 (v a) := by abel
    _ = t.sum v + d := by rw [this]; abel

/-- Two values shifted by the same change add up. -/
theorem add (h₁ : Shift v t t' a d) (h₂ : Shift w t t' a e) :
    Shift (fun k b => v k b + w k b) t t' a (d + e) := by
  have helim : ∀ o : Option ν, o.elim 0 (fun b => v a b + w a b) = o.elim 0 (v a) + o.elim 0 (w a) := by
    intro o; cases o <;> simp
  refine ⟨h₁.frame, ?_⟩
  rw [helim, helim, h₁.value, h₂.value]
  abel

/-- Only the rows whose key satisfies `p` count. -/
theorem restrict (h : Shift v t t' a d) (p : α → Prop) [DecidablePred p] :
    Shift (fun k b => if p k then v k b else 0) t t' a (if p a then d else 0) := by
  have helim : ∀ o : Option ν, o.elim 0 (fun b => if p a then v a b else 0) =
      if p a then o.elim 0 (v a) else 0 := by
    intro o; cases o <;> split_ifs <;> simp
  refine ⟨h.frame, ?_⟩
  rw [helim, helim, h.value]
  split_ifs <;> simp

end Shift

end Shift

end AList
