import Mathlib.Data.List.Basic
import Mathlib.Algebra.Order.Group.Nat
import Mathlib.Tactic.Ring

/-!
# Pairing a list, level by level

`level f l` combines adjacent elements of `l` with `f`, an odd last element with itself;
`levels f l j` applies `level` `j` times. This is a binary tree over `l` built bottom up, where
a node missing on the right is taken to be a copy of its left neighbour.

The node at position `p` of level `j` depends on the leaves `p * 2^j` to `(p + 1) * 2^j - 1`
only; when they are all there, appending leaves does not change it
(`getElem?_levels_append`). The last node of a level is its left neighbour's pair or its own
copy's, by the parity of its position (`getElem?_level_of_odd`, `getElem?_level_of_even`).
-/

namespace PairLevels

variable {α : Type*} (f : α → α → α)

/-- Adjacent elements combined, an odd last element with itself. -/
def level : List α → List α
  | a :: b :: rest => f a b :: level rest
  | [a] => [f a a]
  | [] => []

/-- `level` applied `j` times. -/
def levels (l : List α) : ℕ → List α
  | 0 => l
  | j + 1 => level f (levels l j)

variable {f}

@[simp] theorem levels_zero (l : List α) : levels f l 0 = l := rfl

theorem levels_succ (l : List α) (j : ℕ) : levels f l (j + 1) = level f (levels f l j) := rfl

/-- The first pairing can be done first. -/
theorem levels_succ' (l : List α) : ∀ j, levels f l (j + 1) = levels f (level f l) j
  | 0 => rfl
  | j + 1 => by rw [levels_succ, levels_succ' l j, levels_succ]

theorem length_level : ∀ l : List α, (level f l).length = (l.length + 1) / 2
  | _ :: _ :: rest => by
    simp only [level, List.length_cons, length_level rest]
    omega
  | [_] => by simp [level]
  | [] => by simp [level]

theorem getElem?_level : ∀ (l : List α) (i : ℕ),
    (level f l)[i]? = l[2 * i]?.map fun a => f a (l[2 * i + 1]?.getD a)
  | _ :: _ :: _, 0 => rfl
  | _ :: _ :: rest, i + 1 => by
    rw [level, List.getElem?_cons_succ, getElem?_level rest i,
      show 2 * (i + 1) = 2 * i + 1 + 1 by ring, List.getElem?_cons_succ, List.getElem?_cons_succ,
      List.getElem?_cons_succ, List.getElem?_cons_succ]
  | [_], 0 => rfl
  | [_], _ + 1 => by simp [level]
  | [], _ => by simp [level]

/-- The last node of an even position has no right neighbour: it is paired with itself. -/
theorem getElem?_level_of_even {l : List α} {q : ℕ} {x : α} (hq : q % 2 = 0)
    (hx : l[q]? = some x) (hlen : l.length = q + 1) : (level f l)[q / 2]? = some (f x x) := by
  have h2 : 2 * (q / 2) = q := by omega
  have hnone : l[q + 1]? = none := List.getElem?_eq_none (by omega)
  rw [getElem?_level, h2, hx, hnone]
  rfl

/-- A node of an odd position is paired with its left neighbour. -/
theorem getElem?_level_of_odd {l : List α} {q : ℕ} {x y : α} (hq : q % 2 = 1)
    (hy : l[q - 1]? = some y) (hx : l[q]? = some x) : (level f l)[q / 2]? = some (f y x) := by
  have h2 : 2 * (q / 2) = q - 1 := by omega
  have h3 : q - 1 + 1 = q := by omega
  rw [getElem?_level, h2, hy, h3, hx]
  rfl

/-- Level `j` of `n` leaves has `(n - 1) / 2^j + 1` nodes. -/
theorem length_levels {l : List α} (hl : l ≠ []) :
    ∀ j, (levels f l j).length = (l.length - 1) / 2 ^ j + 1
  | 0 => by
    have := List.length_pos_iff.2 hl
    simp only [levels_zero, pow_zero, Nat.div_one]
    omega
  | j + 1 => by
    rw [levels_succ, length_level, length_levels hl j, pow_succ, ← Nat.div_div_eq_div_mul]
    omega

/-- The nodes of level `j` over complete blocks of `l` are the same when leaves are appended. -/
theorem getElem?_levels_append {l : List α} (x : List α) :
    ∀ {j p : ℕ}, (p + 1) * 2 ^ j ≤ l.length → (levels f (l ++ x) j)[p]? = (levels f l j)[p]?
  | 0, p, hp => by
    rw [levels_zero, levels_zero, List.getElem?_append_left (by simp at hp; omega)]
  | j + 1, p, hp => by
    -- both children of the node are complete blocks of level `j`
    have hright : (2 * p + 1 + 1) * 2 ^ j ≤ l.length :=
      calc (2 * p + 1 + 1) * 2 ^ j = (p + 1) * 2 ^ (j + 1) := by ring
        _ ≤ l.length := hp
    have hleft : (2 * p + 1) * 2 ^ j ≤ l.length :=
      le_trans (Nat.mul_le_mul_right _ (Nat.le_succ _)) hright
    rw [levels_succ, levels_succ, getElem?_level, getElem?_level,
      getElem?_levels_append x hleft, getElem?_levels_append x hright]

end PairLevels
