import Safeos.Auth.Checker
import Mathlib.Algebra.Order.BigOperators.Group.List
import Mathlib.Algebra.Order.Group.Nat

/-!
# What the authority checker decides

The checker's answer is meant to be a property of the keys, permissions and delay provided, and
not of the order in which it happens to visit a permission graph: a permission holds when it is
provided (itself, or its whole account), or when the weights of the entries of its authority
that hold reach the threshold. `permissionHolds n` reads this definition `n` levels down.

On a graph where a rank falls along every account entry, the definition does not depend on how
deep it is read once the depth exceeds the rank (`permissionHolds_stable`); `holds` is that
value, and it satisfies the defining equation (`holds_eq`). The definition is monotone: more
keys, more provided permissions and a longer delay never make a permission fail
(`Le.permissionHolds`).
-/

namespace Safeos

namespace AuthorityChecker

variable {K : Type} [DecidableEq K] (c : AuthorityChecker K)

/-- A permission is provided, itself or as its whole account. -/
def provided (p : PermissionLevel) : Bool :=
  p ∈ c.providedPermissions || (⟨p.actor, ⟨0⟩⟩ : PermissionLevel) ∈ c.providedPermissions

/-- The weight an entry contributes, when account entries hold by `holds`. -/
def heldWeight (holds : PermissionLevel → Bool) : MetaPermission K → Nat
  | .keyWeight w => if w.key ∈ c.providedKeys then w.weight else 0
  | .waitWeight w => if c.providedDelay ≥ w.waitSec * 1000000 then w.weight else 0
  | .permissionLevelWeight w => if holds w.permission then w.weight else 0

/-- The entries of an authority, in the order they are listed. -/
def entries (auth : Authority K) : List (MetaPermission K) :=
  (auth.waits.map MetaPermission.waitWeight) ++ (auth.keys.map MetaPermission.keyWeight) ++
    (auth.accounts.map MetaPermission.permissionLevelWeight)

/-- An authority holds when the entries that hold reach its threshold. -/
def authorityHolds (holds : PermissionLevel → Bool) (auth : Authority K) : Bool :=
  decide (auth.threshold ≤ ((entries auth).map (c.heldWeight holds)).sum)

/-- A permission holds, reading the definition `n` levels down. -/
def permissionHolds : Nat → PermissionLevel → Bool
  | 0, p => c.provided p
  | n + 1, p => c.provided p ||
    match c.permissionToAuthority p with
    | some auth => c.authorityHolds (permissionHolds n) auth
    | none => false

/-- `rank` falls along every account entry of the graph: no permission is reachable from
itself. -/
def Ranked (rank : PermissionLevel → Nat) : Prop :=
  ∀ p auth, c.permissionToAuthority p = some auth → ∀ w ∈ auth.accounts, rank w.permission < rank p

/-- Whether a permission holds on a ranked graph: the definition read below its rank. -/
def holds (rank : PermissionLevel → Nat) (p : PermissionLevel) : Bool :=
  c.permissionHolds (rank p + 1) p

omit [DecidableEq K] in
theorem mem_entries_account {auth : Authority K} {w : PermissionLevelWeight}
    (h : MetaPermission.permissionLevelWeight w ∈ entries auth) : w ∈ auth.accounts := by
  simpa [entries] using h

/-- An authority's verdict only reads `holds` on its account entries. -/
theorem authorityHolds_congr {h₁ h₂ : PermissionLevel → Bool} {auth : Authority K}
    (h : ∀ w ∈ auth.accounts, h₁ w.permission = h₂ w.permission) :
    c.authorityHolds h₁ auth = c.authorityHolds h₂ auth := by
  have hmap : (entries auth).map (c.heldWeight h₁) = (entries auth).map (c.heldWeight h₂) := by
    refine List.map_congr_left fun e he => ?_
    cases e with
    | permissionLevelWeight w => simp only [heldWeight, h w (mem_entries_account he)]
    | keyWeight w => rfl
    | waitWeight w => rfl
  simp only [authorityHolds, hmap]

section Ranked

variable {c} {rank : PermissionLevel → Nat}

/-- Read deeper than its rank, the definition no longer changes. -/
theorem permissionHolds_stable (hr : c.Ranked rank) :
    ∀ n m p, rank p < n → rank p < m → c.permissionHolds n p = c.permissionHolds m p
  | n + 1, m + 1, p, hn, hm => by
    simp only [permissionHolds]
    congr 1
    cases hp : c.permissionToAuthority p with
    | none => rfl
    | some auth =>
      -- each account entry ranks below `p`, so below both depths
      refine c.authorityHolds_congr fun w hw => ?_
      have := hr p auth hp w hw
      exact permissionHolds_stable hr n m w.permission (by omega) (by omega)

/-- The defining equation: a permission holds when it is provided, or its authority holds. -/
theorem holds_eq (hr : c.Ranked rank) (p : PermissionLevel) :
    c.holds rank p = (c.provided p ||
      match c.permissionToAuthority p with
      | some auth => c.authorityHolds (c.holds rank) auth
      | none => false) := by
  simp only [holds, permissionHolds]
  congr 1
  cases hp : c.permissionToAuthority p with
  | none => rfl
  | some auth =>
    refine c.authorityHolds_congr fun w hw => ?_
    have := hr p auth hp w hw
    exact permissionHolds_stable hr _ _ _ (by omega) (by omega)

end Ranked

/-! ## Monotonicity -/

/-- `c'` provides at least what `c` provides, over the same graph. -/
structure Le (c c' : AuthorityChecker K) : Prop where
  graph : c'.permissionToAuthority = c.permissionToAuthority
  keys : ∀ k ∈ c.providedKeys, k ∈ c'.providedKeys
  permissions : ∀ p ∈ c.providedPermissions, p ∈ c'.providedPermissions
  delay : c.providedDelay ≤ c'.providedDelay

variable {c} {c' : AuthorityChecker K}

omit [DecidableEq K] in
theorem Le.provided (h : c.Le c') {p : PermissionLevel} (hp : c.provided p = true) :
    c'.provided p = true := by
  simp only [AuthorityChecker.provided, Bool.or_eq_true, decide_eq_true_eq] at hp ⊢
  rcases hp with hp | hp
  · exact .inl (h.permissions _ hp)
  · exact .inr (h.permissions _ hp)

theorem Le.heldWeight (h : c.Le c') {h₁ h₂ : PermissionLevel → Bool}
    (hh : ∀ p, h₁ p = true → h₂ p = true) (e : MetaPermission K) :
    c.heldWeight h₁ e ≤ c'.heldWeight h₂ e := by
  cases e with
  | permissionLevelWeight w =>
    simp only [AuthorityChecker.heldWeight]
    by_cases h₁w : h₁ w.permission = true
    · simp [h₁w, hh _ h₁w]
    · simp [h₁w]
  | keyWeight w =>
    simp only [AuthorityChecker.heldWeight]
    by_cases hk : w.key ∈ c.providedKeys
    · simp [hk, h.keys _ hk]
    · simp [hk]
  | waitWeight w =>
    simp only [AuthorityChecker.heldWeight]
    by_cases hd : c.providedDelay ≥ w.waitSec * 1000000
    · simp [hd, le_trans hd h.delay]
    · simp [hd]

theorem Le.authorityHolds (h : c.Le c') {h₁ h₂ : PermissionLevel → Bool}
    (hh : ∀ p, h₁ p = true → h₂ p = true) {auth : Authority K}
    (ha : c.authorityHolds h₁ auth = true) : c'.authorityHolds h₂ auth = true := by
  simp only [AuthorityChecker.authorityHolds, decide_eq_true_eq] at ha ⊢
  exact le_trans ha (List.sum_le_sum fun e _ => h.heldWeight hh e)

/-- More keys, more provided permissions and a longer delay never make a permission fail. -/
theorem Le.permissionHolds (h : c.Le c') :
    ∀ n p, c.permissionHolds n p = true → c'.permissionHolds n p = true
  | 0, p, hp => h.provided hp
  | n + 1, p, hp => by
    simp only [AuthorityChecker.permissionHolds, Bool.or_eq_true] at hp ⊢
    rcases hp with hp | hp
    · exact .inl (h.provided hp)
    · refine .inr ?_
      rw [h.graph]
      cases ha : c.permissionToAuthority p with
      | none => simp [ha] at hp
      | some auth =>
        simp only [ha] at hp ⊢
        exact h.authorityHolds (h.permissionHolds n) hp

end AuthorityChecker

end Safeos
