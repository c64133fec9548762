import Safeos.Auth.Authority

/-!
# The authority checker (`chain/authority_checker.hpp`)

`authority_checker` decides whether provided keys, provided permissions and a provided delay
satisfy an authority or a permission. The entries of an authority are merged into one list,
heaviest first (waits before keys before accounts on equal weight), and tallied until the
threshold is reached. An account entry is looked up in a permission cache; a permission not
yet cached is evaluated recursively, if the depth limit allows, and its result cached. The
cache lives for one top-level call and is never rolled back; the set of used keys lives as long
as the checker, and is rolled back (`KeyReverter`) when an authority is not satisfied.

The recursion is bounded by the depth limit: `satisfiedAuthority fuel` is the code's
`satisfied(authority, cache, depth)` at `depth = recursion_depth_limit - fuel`, so a permission
is evaluated exactly when `fuel > 0`.
-/

namespace Safeos

/-- `permission_cache_status`. -/
inductive PermissionCacheStatus where
  | beingEvaluated
  | permissionUnsatisfied
  | permissionSatisfied
deriving DecidableEq, Repr

/-- The permission cache, most recent entry first: `emplace` and an update through the iterator
both put the new status in front. -/
abbrev PermissionCache := List (PermissionLevel × PermissionCacheStatus)

/-- `meta_permission`, the `static_variant` of the three kinds of entries. -/
inductive MetaPermission (K : Type) where
  | permissionLevelWeight (w : PermissionLevelWeight)
  | keyWeight (w : KeyWeight K)
  | waitWeight (w : WaitWeight)
deriving DecidableEq, Repr

namespace MetaPermission

variable {K : Type}

/-- `get_weight_visitor`. -/
def weight : MetaPermission K → Nat
  | .permissionLevelWeight w => w.weight
  | .keyWeight w => w.weight
  | .waitWeight w => w.weight

/-- `which()`: the position of the kind in the variant. -/
def which : MetaPermission K → Nat
  | .permissionLevelWeight _ => 0
  | .keyWeight _ => 1
  | .waitWeight _ => 2

/-- `meta_permission_comparator`: `lhs` goes first when `(weight, which)` is greater. -/
def comparator (lhs rhs : MetaPermission K) : Bool :=
  decide (lhs.weight > rhs.weight ∨ (lhs.weight = rhs.weight ∧ lhs.which > rhs.which))

/-- `flat_multiset::insert` of one element: after every element it does not go before. -/
def insertSorted (x : MetaPermission K) : List (MetaPermission K) → List (MetaPermission K)
  | [] => [x]
  | y :: ys => if comparator x y then x :: y :: ys else y :: insertSorted x ys

end MetaPermission

/-- The `meta_permission_set` of an authority: its waits, keys and accounts inserted in turn. -/
def metaPermissions {K : Type} (auth : Authority K) : List (MetaPermission K) :=
  ((auth.waits.map MetaPermission.waitWeight) ++ (auth.keys.map MetaPermission.keyWeight) ++
    (auth.accounts.map MetaPermission.permissionLevelWeight)).foldl
      (fun set p => MetaPermission.insertSorted p set) []

/-- The data an `authority_checker` is built from. `permission_to_authority` fails (a
`permission_query_exception`) for a permission that does not exist. -/
structure AuthorityChecker (K : Type) where
  permissionToAuthority : PermissionLevel → Option (Authority K)
  recursionDepthLimit : Nat
  providedKeys : List K
  providedPermissions : List PermissionLevel
  providedDelay : Int

/-- The running state of a `weight_tally_visitor`: its total, the permission cache, and the
checker's used keys. -/
structure Tally (K : Type) where
  totalWeight : Nat
  cache : PermissionCache
  usedKeys : List K

namespace AuthorityChecker

variable {K : Type} [DecidableEq K] (c : AuthorityChecker K)

/-- `permission_status_in_cache`: the permission itself, else the whole account
(`{actor, permission_name()}`). -/
def permissionStatusInCache (permissions : PermissionCache) (level : PermissionLevel) :
    Option PermissionCacheStatus :=
  match permissions.lookup level with
  | some s => some s
  | none => permissions.lookup ⟨level.actor, ⟨0⟩⟩

/-- `initialize_permission_cache`: every provided permission is satisfied. -/
def initializePermissionCache : PermissionCache :=
  c.providedPermissions.map fun p => (p, .permissionSatisfied)

/-- One call of `weight_tally_visitor`. `sub` evaluates an authority one level deeper; it is
absent at the depth limit. -/
def weightTallyVisitor
    (sub : Option (Authority K → PermissionCache → List K → Bool × PermissionCache × List K))
    (t : Tally K) : MetaPermission K → Tally K
  | .waitWeight p =>
    if c.providedDelay ≥ p.waitSec * 1000000 then { t with totalWeight := t.totalWeight + p.weight }
    else t
  | .keyWeight p =>
    if p.key ∈ c.providedKeys then
      { t with totalWeight := t.totalWeight + p.weight, usedKeys := p.key :: t.usedKeys }
    else t
  | .permissionLevelWeight p =>
    match permissionStatusInCache t.cache p.permission with
    | none =>
      match sub, c.permissionToAuthority p.permission with
      | some sub, some auth =>
        let (r, cache, usedKeys) := sub auth ((p.permission, .beingEvaluated) :: t.cache) t.usedKeys
        if r then
          { totalWeight := t.totalWeight + p.weight,
            cache := (p.permission, .permissionSatisfied) :: cache, usedKeys }
        else { t with cache := (p.permission, .permissionUnsatisfied) :: cache, usedKeys }
      -- beyond the depth limit, or a permission that does not exist: skipped, not cached
      | _, _ => t
    | some .permissionSatisfied => { t with totalWeight := t.totalWeight + p.weight }
    | some _ => t

/-- The loop of `satisfied(authority, cache, depth)`: tally the sorted entries until the
threshold is reached. -/
def tallyLoop
    (sub : Option (Authority K → PermissionCache → List K → Bool × PermissionCache × List K))
    (threshold : Nat) : List (MetaPermission K) → Tally K → Bool × Tally K
  | [], t => (false, t)
  | p :: ps, t =>
    let t := c.weightTallyVisitor sub t p
    if t.totalWeight ≥ threshold then (true, t) else tallyLoop sub threshold ps t

/-- `satisfied(authority, cache, depth)` at `depth = recursion_depth_limit - fuel`. When the
authority is not satisfied, `KeyReverter` restores the used keys; the cache is kept. -/
def satisfiedAuthority : Nat → Authority K → PermissionCache → List K →
    Bool × PermissionCache × List K
  | fuel, auth, cache, usedKeys =>
    let sub := match fuel with
      | 0 => none
      | n + 1 => some (satisfiedAuthority n)
    let (ok, t) := c.tallyLoop sub auth.threshold (metaPermissions auth) ⟨0, cache, usedKeys⟩
    if ok then (true, t.cache, t.usedKeys) else (false, t.cache, usedKeys)

/-- `satisfied(permission)` on a fresh cache: the permission as an entry of weight one, visited
at depth zero. Returns the result and the used keys. -/
def satisfiedPermission (permission : PermissionLevel) (usedKeys : List K) : Bool × List K :=
  let sub := match c.recursionDepthLimit with
    | 0 => none
    | n + 1 => some (c.satisfiedAuthority n)
  let t := c.weightTallyVisitor sub ⟨0, c.initializePermissionCache, usedKeys⟩
    (.permissionLevelWeight ⟨permission, 1⟩)
  (decide (t.totalWeight > 0), t.usedKeys)

/-- `satisfied(authority)` on a fresh cache, at depth zero. -/
def satisfied (auth : Authority K) (usedKeys : List K) : Bool × List K :=
  let (ok, _, usedKeys) :=
    c.satisfiedAuthority c.recursionDepthLimit auth c.initializePermissionCache usedKeys
  (ok, usedKeys)

/-- `used_keys()`: the provided keys marked as used. -/
def usedKeysOf (usedKeys : List K) : List K := c.providedKeys.filter (· ∈ usedKeys)

/-- `all_keys_used()`. -/
def allKeysUsed (usedKeys : List K) : Bool := c.providedKeys.all (· ∈ usedKeys)

end AuthorityChecker

/-! ## A key counted but not marked used

`P` holds by key `1`; `Y` needs `P` and key `2`; `X` needs `Y` or `P`. Evaluating `X` visits `Y`
first (the heavier entry); `Y` evaluates and caches `P`, marking key `1`, then fails, and its
`KeyReverter` unmarks the key. `X` counts the cached `P` and is satisfied, with no key marked:
the key set `get_required_keys` reports does not satisfy `X`. -/

/-- The permissions `X = 1@1`, `Y = 2@1` and `P = 3@1`. -/
def revertedKeyGraph : List (PermissionLevel × Authority Nat) :=
  [(⟨⟨1⟩, ⟨1⟩⟩, ⟨1, [], [⟨⟨⟨2⟩, ⟨1⟩⟩, 2⟩, ⟨⟨⟨3⟩, ⟨1⟩⟩, 1⟩], []⟩),
   (⟨⟨2⟩, ⟨1⟩⟩, ⟨2, [⟨2, 1⟩], [⟨⟨⟨3⟩, ⟨1⟩⟩, 1⟩], []⟩),
   (⟨⟨3⟩, ⟨1⟩⟩, ⟨1, [⟨1, 1⟩], [], []⟩)]

theorem satisfiedPermission_usedKeys_unsatisfied :
    let c : AuthorityChecker Nat := ⟨fun p => revertedKeyGraph.lookup p, 6, [1], [], 0⟩
    let r := c.satisfiedPermission ⟨⟨1⟩, ⟨1⟩⟩ []
    revertedKeyGraph.all (fun e => e.2.validate) = true ∧
    r.1 = true ∧ c.usedKeysOf r.2 = [] ∧
    ({ c with providedKeys := c.usedKeysOf r.2 } : AuthorityChecker Nat).satisfiedPermission
      ⟨⟨1⟩, ⟨1⟩⟩ [] = (false, []) := by
  decide

/-! ## More keys, fewer satisfied authorities

`A` needs `S` and `R`. With key `1` alone, `S` is satisfied through `Q` (key `1`), which is
evaluated and cached at depth 2; `R` is then satisfied through `R2`, which finds `Q` in the
cache at the depth limit. With keys `1` and `2`, `S` is satisfied by key `2` directly, `Q` is
never cached, and `R2` cannot evaluate `Q` at the depth limit. -/

/-- The permissions `S = 10@1`, `R = 11@1`, `R2 = 12@1` and `Q = 13@1`. -/
def depthCacheGraph : List (PermissionLevel × Authority Nat) :=
  [(⟨⟨10⟩, ⟨1⟩⟩, ⟨1, [⟨2, 1⟩], [⟨⟨⟨13⟩, ⟨1⟩⟩, 1⟩], []⟩),
   (⟨⟨11⟩, ⟨1⟩⟩, ⟨1, [], [⟨⟨⟨12⟩, ⟨1⟩⟩, 1⟩], []⟩),
   (⟨⟨12⟩, ⟨1⟩⟩, ⟨1, [], [⟨⟨⟨13⟩, ⟨1⟩⟩, 1⟩], []⟩),
   (⟨⟨13⟩, ⟨1⟩⟩, ⟨1, [⟨1, 1⟩], [], []⟩)]

/-- The authority `A`. -/
def depthCacheAuthority : Authority Nat := ⟨3, [], [⟨⟨⟨10⟩, ⟨1⟩⟩, 2⟩, ⟨⟨⟨11⟩, ⟨1⟩⟩, 1⟩], []⟩

end Safeos
