import Mathlib.Data.List.Sort
import Mathlib.Tactic.Set

/-!
# Order statistics of a list

The entry at position `k` of a list sorted by `insertionSort` is its `k`-th smallest element. It is
characterised by counting (`le_getD_insertionSort_iff`): `x` is at most that entry exactly when at
most `k` elements lie below `x`. The comparisons of order statistics used elsewhere follow from
the count alone: raising elements (`getD_insertionSort_mono`) and adding an element above all others
at a position no lower (`getD_insertionSort_le_cons`) never lower the statistic.
-/

namespace List

variable {α : Type*} [LinearOrder α]

/-- On a sorted list, `x` is at most the entry at `k` exactly when at most `k` entries lie
below `x`. -/
theorem le_getElem_iff_countP_of_pairwise :
    ∀ {l : List α}, l.Pairwise (· ≤ ·) → ∀ {k : ℕ} (hk : k < l.length) (x : α),
      x ≤ l[k] ↔ l.countP (fun y => decide (y < x)) ≤ k
  | a :: t, hs, 0, _, x => by
    -- the head is the minimum, so nothing lies below `x` exactly when the head does not
    have hmin : ∀ y ∈ t, a ≤ y := (pairwise_cons.1 hs).1
    simp only [getElem_cons_zero, Nat.le_zero, countP_eq_zero, mem_cons, decide_eq_true_eq,
      not_lt]
    constructor
    · rintro hx y (rfl | hy)
      · exact hx
      · exact hx.trans (hmin y hy)
    · intro h
      exact h a (.inl rfl)
  | a :: t, hs, k + 1, hk, x => by
    have hmin : ∀ y ∈ t, a ≤ y := (pairwise_cons.1 hs).1
    rw [getElem_cons_succ, le_getElem_iff_countP_of_pairwise (pairwise_cons.1 hs).2, countP_cons]
    by_cases hax : a < x
    · simp [hax]
    · -- the head, and so every entry after it, is at least `x`
      have h0 : t.countP (fun y => decide (y < x)) = 0 :=
        countP_eq_zero.2 fun y hy => by simpa using (not_lt.1 hax).trans (hmin y hy)
      simp [hax, h0]

/-- The counting characterisation of the `k`-th smallest element. -/
theorem le_getD_insertionSort_iff {l : List α} {k : ℕ} (hk : k < l.length) (d x : α) :
    x ≤ (l.insertionSort (· ≤ ·)).getD k d ↔
      l.countP (fun y => decide (y < x)) ≤ k := by
  have hk' : k < (l.insertionSort (· ≤ ·)).length := by simpa using hk
  rw [← getElem_eq_getD (h := hk') d,
    le_getElem_iff_countP_of_pairwise (pairwise_insertionSort _ l) hk',
    (perm_insertionSort _ l).countP_eq]

theorem getD_insertionSort_mem {l : List α} {k : ℕ} (hk : k < l.length) (d : α) :
    (l.insertionSort (· ≤ ·)).getD k d ∈ l := by
  have hk' : k < (l.insertionSort (· ≤ ·)).length := by simpa using hk
  rw [← getElem_eq_getD (h := hk') d]
  exact (perm_insertionSort _ l).subset (getElem_mem hk')

/-- Raising elements: a list of the same length with no more elements below any bound has
order statistics at least as large. -/
theorem getD_insertionSort_mono {l l' : List α} {k : ℕ} (hk : k < l.length)
    (hlen : l'.length = l.length)
    (hc : ∀ x, l'.countP (fun y => decide (y < x)) ≤ l.countP (fun y => decide (y < x)))
    (d : α) :
    (l.insertionSort (· ≤ ·)).getD k d ≤
      (l'.insertionSort (· ≤ ·)).getD k d := by
  rw [le_getD_insertionSort_iff (hlen ▸ hk)]
  exact Nat.le_trans (hc _) ((le_getD_insertionSort_iff hk d _).1 le_rfl)

/-- Adding an element above all others, and reading at a position no lower, never lowers the
statistic. -/
theorem getD_insertionSort_le_cons {l : List α} {k k' : ℕ} {v : α} (hv : ∀ y ∈ l, y ≤ v)
    (hk : k < l.length) (hkk : k ≤ k') (hk' : k' < l.length + 1) (d : α) :
    (l.insertionSort (· ≤ ·)).getD k d ≤
      ((v :: l).insertionSort (· ≤ ·)).getD k' d := by
  set x := (l.insertionSort (· ≤ ·)).getD k d
  have hcount := (le_getD_insertionSort_iff hk d x).1 le_rfl
  -- `v` is at least `x`, an element of `l`, so it does not count below `x`
  have hvx : ¬ v < x := not_lt.2 (hv x (getD_insertionSort_mem hk d))
  rw [le_getD_insertionSort_iff (by simpa using hk'), countP_cons]
  simp only [hvx, decide_false, Bool.false_eq_true, ↓reduceIte, Nat.add_zero]
  omega

end List
