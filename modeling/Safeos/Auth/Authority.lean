import Safeos.Name
import Mathlib

/-!
# Authorities (`chain/authority.hpp`, `chain/transaction.hpp`)

A permission level names a permission of an account. An authority is a threshold and three
weighted lists: public keys, permission levels and waits. It is satisfied when the weights of
its satisfied entries reach the threshold; `validate` is the check every stored authority has
passed: the entries of each list are sorted without duplicates, no wait is zero, and the
weights together reach the threshold.

Keys are of any type with equality and an order, as the checker only compares them. Weights
and thresholds are `Nat`: a validated authority has at most `2^16` entries of `uint16_t`
weight, so no `uint32_t` sum of its weights wraps.
-/

namespace Safeos

/-- `permission_level`. -/
structure PermissionLevel where
  actor : Name
  permission : Name
deriving DecidableEq, Repr

namespace PermissionLevel

/-- `operator<` of `permission_level`: by actor, then by permission. -/
instance : LT PermissionLevel :=
  ⟨fun a b => a.actor < b.actor ∨ (a.actor = b.actor ∧ a.permission < b.permission)⟩

instance (a b : PermissionLevel) : Decidable (a < b) :=
  inferInstanceAs (Decidable (a.actor < b.actor ∨ (a.actor = b.actor ∧ a.permission < b.permission)))

end PermissionLevel

/-- `permission_level_weight`. -/
structure PermissionLevelWeight where
  permission : PermissionLevel
  weight : Nat
deriving DecidableEq, Repr

/-- `key_weight`. -/
structure KeyWeight (K : Type) where
  key : K
  weight : Nat
deriving DecidableEq, Repr

/-- `wait_weight`. -/
structure WaitWeight where
  waitSec : Nat
  weight : Nat
deriving DecidableEq, Repr

/-- `authority`. -/
structure Authority (K : Type) where
  threshold : Nat
  keys : List (KeyWeight K)
  accounts : List PermissionLevelWeight
  waits : List WaitWeight
deriving DecidableEq, Repr

/-- The `prev < cur` loops of `validate`: every element below the next. -/
def ascending {α : Type} [LT α] [DecidableRel (α := α) (· < ·)] : List α → Bool
  | a :: b :: rest => decide (a < b) && ascending (b :: rest)
  | _ => true

namespace Authority

variable {K : Type}

/-- The sum of all weights, as `validate` adds them. -/
def totalWeight (auth : Authority K) : Nat :=
  (auth.keys.map (·.weight)).sum + (auth.accounts.map (·.weight)).sum +
    (auth.waits.map (·.weight)).sum

/-- `validate`: at most `2^16` entries, a non-zero threshold, keys and permission levels
strictly ascending, waits strictly ascending from a non-zero first wait, and enough weight to
reach the threshold. -/
def validate [LT K] [DecidableRel (α := K) (· < ·)] (auth : Authority K) : Bool :=
  auth.keys.length + auth.accounts.length + auth.waits.length ≤ 2 ^ 16 &&
  auth.threshold != 0 &&
  ascending (auth.keys.map (·.key)) &&
  ascending (auth.accounts.map (·.permission)) &&
  (match auth.waits with
    | [] => true
    | w :: _ => w.waitSec != 0) &&
  ascending (auth.waits.map (·.waitSec)) &&
  decide (auth.totalWeight ≥ auth.threshold)

end Authority

end Safeos
