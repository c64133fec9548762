import Safeos.Auth.Ideal

/-!
# The checker computes the ideal verdict

On an `Exact` graph (a rank falls along every account entry, every account entry names a
permission and not a whole account, every threshold is positive) and for an authority whose
account entries rank below the depth limit, `satisfied` returns `authorityHolds`. The order of
the visits, the early exit, the shared cache
and the depth limit then make no difference, and the monotonicity of the ideal verdict carries
over to the checker (`satisfied_mono`).

The proof follows the recursion. Below a rank `b` a cache is sound when every permission is
either cached with its ideal verdict, or not cached and not provided; an evaluation at bound `b`
only extends the cache with ideal verdicts of permissions of rank below `b`. The
`beingEvaluated` entry pushed for a permission `e` sits at rank `rank e`, just outside the bound
of its own evaluation, and is shadowed by the verdict when that evaluation returns.
-/

namespace Safeos

namespace MetaPermission

variable {K : Type}

theorem insertSorted_perm (x : MetaPermission K) :
    ∀ l, (insertSorted x l).Perm (x :: l)
  | [] => .refl _
  | y :: ys => by
    unfold insertSorted
    split
    · exact .refl _
    · exact ((insertSorted_perm x ys).cons y).trans (.swap x y ys)

theorem foldl_insertSorted_perm :
    ∀ l acc : List (MetaPermission K), (l.foldl (fun set p => insertSorted p set) acc).Perm (l ++ acc)
  | [], _ => .refl _
  | p :: ps, acc =>
    (foldl_insertSorted_perm ps _).trans (((insertSorted_perm p acc).append_left ps).trans List.perm_middle)

end MetaPermission

/-- The sorted set of an authority holds the entries of the authority. -/
theorem metaPermissions_perm {K : Type} (auth : Authority K) :
    (metaPermissions auth).Perm (AuthorityChecker.entries auth) := by
  have h := MetaPermission.foldl_insertSorted_perm (AuthorityChecker.entries auth) []
  rwa [List.append_nil] at h

namespace AuthorityChecker

variable {K : Type} [DecidableEq K]

/-! ## The cache -/

theorem lookup_map_const (s : PermissionCacheStatus) (q : PermissionLevel) :
    ∀ l : List PermissionLevel, (l.map fun p => (p, s)).lookup q = if q ∈ l then some s else none
  | [] => rfl
  | p :: ps => by
    by_cases h : q = p
    · simp [h]
    · rw [List.map_cons, List.lookup_cons, beq_false_of_ne h, lookup_map_const s q ps]
      simp [h]

theorem permissionStatusInCache_cons_self (e : PermissionLevel) (s : PermissionCacheStatus)
    (cache : PermissionCache) : permissionStatusInCache ((e, s) :: cache) e = some s := by
  simp [permissionStatusInCache]

/-- Caching a permission does not change what the cache says about another: the fallback to
the whole account only finds entries with an empty permission name. -/
theorem permissionStatusInCache_cons_ne {e q : PermissionLevel} (he : e.permission ≠ ⟨0⟩)
    (hq : q ≠ e) (s : PermissionCacheStatus) (cache : PermissionCache) :
    permissionStatusInCache ((e, s) :: cache) q = permissionStatusInCache cache q := by
  have hq' : (q == e) = false := beq_false_of_ne hq
  have ha : ((⟨q.actor, ⟨0⟩⟩ : PermissionLevel) == e) = false := by
    refine beq_false_of_ne ?_
    rintro rfl
    exact he rfl
  simp only [permissionStatusInCache, List.lookup_cons, hq', ha]

omit [DecidableEq K] in
theorem permissionStatusInCache_init (c : AuthorityChecker K) (q : PermissionLevel) :
    permissionStatusInCache c.initializePermissionCache q =
      if c.provided q then some .permissionSatisfied else none := by
  simp only [permissionStatusInCache, initializePermissionCache, lookup_map_const]
  by_cases h₁ : q ∈ c.providedPermissions
  · simp [provided, h₁]
  · by_cases h₂ : (⟨q.actor, ⟨0⟩⟩ : PermissionLevel) ∈ c.providedPermissions
    · simp [provided, h₁, h₂]
    · simp [provided, h₁, h₂]

variable (c : AuthorityChecker K) (rank : PermissionLevel → Nat)

/-- A cache status that records the ideal verdict of `q`. -/
def Verdict (q : PermissionLevel) : Option PermissionCacheStatus → Prop
  | some .permissionSatisfied => c.holds rank q = true
  | some .permissionUnsatisfied => c.holds rank q = false
  | _ => False

/-- Below rank `b` the cache agrees with the ideal semantics. -/
def CacheSound (b : Nat) (cache : PermissionCache) : Prop :=
  ∀ q : PermissionLevel, q.permission ≠ ⟨0⟩ → rank q < b →
    c.Verdict rank q (permissionStatusInCache cache q) ∨
      (permissionStatusInCache cache q = none ∧ c.provided q = false)

/-- `cache'` agrees with `cache` except for ideal verdicts of permissions of rank below `b`. -/
def Extends (b : Nat) (cache cache' : PermissionCache) : Prop :=
  ∀ q : PermissionLevel, q.permission ≠ ⟨0⟩ →
    permissionStatusInCache cache' q = permissionStatusInCache cache q ∨
      (rank q < b ∧ c.Verdict rank q (permissionStatusInCache cache' q))

/-- The graphs on which the checker is exact. -/
structure Exact : Prop where
  ranked : c.Ranked rank
  named : ∀ p auth, c.permissionToAuthority p = some auth →
    ∀ w ∈ auth.accounts, w.permission.permission ≠ ⟨0⟩
  threshold : ∀ p auth, c.permissionToAuthority p = some auth → 0 < auth.threshold

/-- An authority evaluated exactly within `b` levels. -/
structure Within (b : Nat) (auth : Authority K) : Prop where
  threshold : 0 < auth.threshold
  accounts : ∀ w ∈ auth.accounts, rank w.permission < b ∧ w.permission.permission ≠ ⟨0⟩

/-- What the evaluation one level down provides, for every permission `e` of rank below `b`:
from a cache sound below `rank e` it returns the ideal verdict of the authority of `e` and only
extends the cache below `rank e`. -/
def SubSound (b : Nat)
    (sub : Option (Authority K → PermissionCache → List K → Bool × PermissionCache × List K)) :
    Prop :=
  ∀ e auth cache used, e.permission ≠ ⟨0⟩ → rank e < b → c.permissionToAuthority e = some auth →
    c.CacheSound rank (rank e) cache →
    ∃ s, sub = some s ∧ (s auth cache used).1 = c.authorityHolds (c.holds rank) auth ∧
      c.Extends rank (rank e) cache (s auth cache used).2.1

instance (b : Nat) (auth : Authority K) : Decidable (Within rank b auth) :=
  decidable_of_iff (0 < auth.threshold ∧
      ∀ w ∈ auth.accounts, rank w.permission < b ∧ w.permission.permission ≠ ⟨0⟩)
    ⟨fun ⟨h₁, h₂⟩ => ⟨h₁, h₂⟩, fun ⟨h₁, h₂⟩ => ⟨h₁, h₂⟩⟩

variable {c rank}

omit [DecidableEq K] in
theorem Exact.within (hg : c.Exact rank) {p : PermissionLevel} {auth : Authority K}
    (hp : c.permissionToAuthority p = some auth) : Within rank (rank p) auth :=
  ⟨hg.threshold p auth hp, fun w hw => ⟨hg.ranked p auth hp w hw, hg.named p auth hp w hw⟩⟩

theorem Extends.refl {b : Nat} {cache : PermissionCache} : c.Extends rank b cache cache :=
  fun _ _ => .inl rfl

theorem Extends.trans {b : Nat} {c₁ c₂ c₃ : PermissionCache} (h₁ : c.Extends rank b c₁ c₂)
    (h₂ : c.Extends rank b c₂ c₃) : c.Extends rank b c₁ c₃ := by
  intro q hq
  rcases h₂ q hq with h | h
  · rw [h]
    rcases h₁ q hq with h' | h'
    · exact .inl h'
    · exact .inr (h ▸ h')
  · exact .inr h

/-- A sound cache stays sound when it is only extended by ideal verdicts. -/
theorem CacheSound.of_extends {b b' : Nat} {cache cache' : PermissionCache}
    (h : c.CacheSound rank b cache) (hx : c.Extends rank b' cache cache') :
    c.CacheSound rank b cache' := by
  intro q hq hlt
  rcases hx q hq with hx | hx
  · rw [hx]
    exact h q hq hlt
  · exact .inl hx.2

theorem holds_of_provided {q : PermissionLevel} (h : c.provided q = true) :
    c.holds rank q = true := by
  simp [holds, permissionHolds, h]

theorem CacheSound.init (b : Nat) : c.CacheSound rank b c.initializePermissionCache := by
  intro q _ _
  rw [permissionStatusInCache_init]
  cases hp : c.provided q
  · exact .inr ⟨rfl, rfl⟩
  · exact .inl (holds_of_provided hp)

/-- Marking `e` as being evaluated leaves the cache sound below `rank e`. -/
theorem CacheSound.push {b : Nat} {cache : PermissionCache} {e : PermissionLevel}
    (h : c.CacheSound rank b cache) (he : e.permission ≠ ⟨0⟩) (hlt : rank e < b) :
    c.CacheSound rank (rank e) ((e, .beingEvaluated) :: cache) := by
  intro q hq hqe
  have hne : q ≠ e := by
    rintro rfl
    exact lt_irrefl _ hqe
  rw [permissionStatusInCache_cons_ne he hne]
  exact h q hq (lt_trans hqe hlt)

/-- Caching the verdict of `e` over its evaluation extends the cache below any bound above
`rank e`. -/
theorem Extends.pop {b : Nat} {cache cache' : PermissionCache} {e : PermissionLevel}
    {s : PermissionCacheStatus} (hx : c.Extends rank (rank e) ((e, .beingEvaluated) :: cache) cache')
    (hv : c.Verdict rank e (some s)) (he : e.permission ≠ ⟨0⟩) (hlt : rank e < b) :
    c.Extends rank b cache ((e, s) :: cache') := by
  intro q hq
  by_cases hqe : q = e
  · subst hqe
    rw [permissionStatusInCache_cons_self]
    exact .inr ⟨hlt, hv⟩
  · rw [permissionStatusInCache_cons_ne he hqe]
    rcases hx q hq with hx | ⟨hlt', hv'⟩
    · rw [hx, permissionStatusInCache_cons_ne he hqe]
      exact .inl rfl
    · exact .inr ⟨lt_trans hlt' hlt, hv'⟩

/-! ## One visit, the loop, the recursion -/

/-- The visit of one entry adds the weight the entry holds in the ideal semantics, and only
extends the cache. -/
theorem weightTallyVisitor_sound (hg : c.Exact rank) {b : Nat}
    {sub : Option (Authority K → PermissionCache → List K → Bool × PermissionCache × List K)}
    (hsub : c.SubSound rank b sub) {t : Tally K} (ht : c.CacheSound rank b t.cache)
    {e : MetaPermission K}
    (he : ∀ w, e = .permissionLevelWeight w → rank w.permission < b ∧ w.permission.permission ≠ ⟨0⟩) :
    (c.weightTallyVisitor sub t e).totalWeight = t.totalWeight + c.heldWeight (c.holds rank) e ∧
      c.Extends rank b t.cache (c.weightTallyVisitor sub t e).cache := by
  cases e with
  | waitWeight w =>
    by_cases hd : c.providedDelay ≥ w.waitSec * 1000000
    · simp [weightTallyVisitor, heldWeight, hd, Extends.refl]
    · simp [weightTallyVisitor, heldWeight, hd, Extends.refl]
  | keyWeight w =>
    by_cases hk : w.key ∈ c.providedKeys
    · simp [weightTallyVisitor, heldWeight, hk, Extends.refl]
    · simp [weightTallyVisitor, heldWeight, hk, Extends.refl]
  | permissionLevelWeight w =>
    obtain ⟨hlt, hne⟩ := he w rfl
    rcases ht w.permission hne hlt with hv | ⟨hnone, hprov⟩
    · -- cached with its verdict: the verdict is counted as it stands
      cases hs : permissionStatusInCache t.cache w.permission with
      | none => simp [hs, Verdict] at hv
      | some st =>
        rw [hs] at hv
        cases st with
        | beingEvaluated => exact hv.elim
        | permissionSatisfied =>
          simp [weightTallyVisitor, heldWeight, hs, show c.holds rank w.permission = true from hv,
            Extends.refl]
        | permissionUnsatisfied =>
          simp [weightTallyVisitor, heldWeight, hs, show c.holds rank w.permission = false from hv,
            Extends.refl]
    · -- not cached and not provided: the verdict is that of its authority, evaluated below
      have hholds := holds_eq hg.ranked w.permission
      rw [hprov, Bool.false_or] at hholds
      cases hauth : c.permissionToAuthority w.permission with
      | none =>
        rw [hauth] at hholds
        simp [weightTallyVisitor, heldWeight, hnone, hauth, hholds, Extends.refl]
      | some auth =>
        rw [hauth] at hholds
        simp only at hholds
        obtain ⟨s, rfl, hr, hx⟩ := hsub w.permission auth ((w.permission, .beingEvaluated) :: t.cache)
          t.usedKeys hne hlt hauth (ht.push hne hlt)
        rcases hres : s auth ((w.permission, .beingEvaluated) :: t.cache) t.usedKeys with
          ⟨r, cache', used'⟩
        rw [hres] at hr hx
        simp only at hr hx
        cases r
        · have hv : c.Verdict rank w.permission (some .permissionUnsatisfied) := by
            simp [Verdict, hholds, ← hr]
          have hvis : c.weightTallyVisitor (some s) t (.permissionLevelWeight w) =
              { t with cache := (w.permission, .permissionUnsatisfied) :: cache', usedKeys := used' } := by
            simp [weightTallyVisitor, hnone, hauth, hres]
          rw [hvis]
          exact ⟨by simp [heldWeight, hholds, ← hr], hx.pop hv hne hlt⟩
        · have hv : c.Verdict rank w.permission (some .permissionSatisfied) := by
            simp [Verdict, hholds, ← hr]
          have hvis : c.weightTallyVisitor (some s) t (.permissionLevelWeight w) =
              ⟨t.totalWeight + w.weight, (w.permission, .permissionSatisfied) :: cache', used'⟩ := by
            simp [weightTallyVisitor, hnone, hauth, hres]
          rw [hvis]
          exact ⟨by simp [heldWeight, hholds, ← hr], hx.pop hv hne hlt⟩

/-- The loop returns whether the running total and the ideal weights of the remaining entries
reach the threshold: the partial sums only grow, so the early exit loses nothing. -/
theorem tallyLoop_sound (hg : c.Exact rank) {b : Nat}
    {sub : Option (Authority K → PermissionCache → List K → Bool × PermissionCache × List K)}
    (hsub : c.SubSound rank b sub) (threshold : Nat) :
    ∀ (es : List (MetaPermission K)) (t : Tally K),
      (∀ w, .permissionLevelWeight w ∈ es → rank w.permission < b ∧ w.permission.permission ≠ ⟨0⟩) →
      t.totalWeight < threshold → c.CacheSound rank b t.cache →
      (c.tallyLoop sub threshold es t).1 =
          decide (threshold ≤ t.totalWeight + (es.map (c.heldWeight (c.holds rank))).sum) ∧
        c.Extends rank b t.cache (c.tallyLoop sub threshold es t).2.cache
  | [], t, _, hlt, _ => by
    refine ⟨?_, Extends.refl⟩
    simp [tallyLoop]
    omega
  | e :: es, t, hes, hlt, ht => by
    obtain ⟨htot, hx⟩ := c.weightTallyVisitor_sound hg hsub ht (e := e)
      (fun w hw => hes w (hw ▸ List.mem_cons_self))
    by_cases hge : threshold ≤ (c.weightTallyVisitor sub t e).totalWeight
    · -- the threshold is reached at `e`
      have hloop : c.tallyLoop sub threshold (e :: es) t = (true, c.weightTallyVisitor sub t e) := by
        simp [tallyLoop, hge]
      rw [hloop]
      refine ⟨?_, hx⟩
      simp only [List.map_cons, List.sum_cons]
      exact (decide_eq_true (by omega)).symm
    · have hloop : c.tallyLoop sub threshold (e :: es) t =
          c.tallyLoop sub threshold es (c.weightTallyVisitor sub t e) := by
        simp [tallyLoop, hge]
      rw [hloop]
      obtain ⟨h₁, h₂⟩ := tallyLoop_sound hg hsub threshold es _
        (fun w hw => hes w (List.mem_cons_of_mem _ hw)) (by omega) (ht.of_extends hx)
      refine ⟨?_, hx.trans h₂⟩
      rw [h₁, htot, List.map_cons, List.sum_cons, Nat.add_assoc]

/-- The loop over the sorted entries of an authority returns the ideal verdict of the
authority: the sorted set is a permutation of the entries. -/
theorem tallyLoop_metaPermissions (hg : c.Exact rank) {b : Nat}
    {sub : Option (Authority K → PermissionCache → List K → Bool × PermissionCache × List K)}
    (hsub : c.SubSound rank b sub) {auth : Authority K} (ha : Within rank b auth)
    {cache : PermissionCache} (hc : c.CacheSound rank b cache) (used : List K) :
    (c.tallyLoop sub auth.threshold (metaPermissions auth) ⟨0, cache, used⟩).1 =
        c.authorityHolds (c.holds rank) auth ∧
      c.Extends rank b cache (c.tallyLoop sub auth.threshold (metaPermissions auth) ⟨0, cache, used⟩).2.cache := by
  have hperm := metaPermissions_perm auth
  have hes : ∀ w, MetaPermission.permissionLevelWeight w ∈ metaPermissions auth →
      rank w.permission < b ∧ w.permission.permission ≠ ⟨0⟩ :=
    fun w hw => ha.accounts w (mem_entries_account (hperm.mem_iff.1 hw))
  obtain ⟨h₁, h₂⟩ := c.tallyLoop_sound hg hsub auth.threshold (metaPermissions auth) ⟨0, cache, used⟩
    hes ha.threshold hc
  refine ⟨?_, h₂⟩
  rw [h₁, authorityHolds, (hperm.map _).sum_eq, Nat.zero_add]

omit [DecidableEq K] in
/-- `KeyReverter` only restores the used keys: the verdict and the cache are the loop's. -/
theorem keyReverter_fst_snd (r : Bool × Tally K) (used : List K) :
    (match r with
      | (ok, t) => if ok then (true, t.cache, t.usedKeys) else (false, t.cache, used)).1 = r.1 ∧
    (match r with
      | (ok, t) => if ok then (true, t.cache, t.usedKeys) else (false, t.cache, used)).2.1 =
        r.2.cache := by
  rcases r with ⟨_ | _, t⟩ <;> simp

/-- `satisfied(authority, cache, depth)` returns what its loop returns, and keeps its cache. -/
theorem satisfiedAuthority_eq (f : Nat) (auth : Authority K) (cache : PermissionCache)
    (used : List K) :
    let r := c.tallyLoop (match f with
      | 0 => none
      | n + 1 => some (c.satisfiedAuthority n)) auth.threshold (metaPermissions auth) ⟨0, cache, used⟩
    (c.satisfiedAuthority f auth cache used).1 = r.1 ∧
      (c.satisfiedAuthority f auth cache used).2.1 = r.2.cache := by
  rw [satisfiedAuthority.eq_def]
  exact keyReverter_fst_snd _ used

theorem SubSound.mono {b b' : Nat}
    {sub : Option (Authority K → PermissionCache → List K → Bool × PermissionCache × List K)}
    (h : c.SubSound rank b sub) (hb : b' ≤ b) : c.SubSound rank b' sub :=
  fun e auth cache used hne hlt => h e auth cache used hne (lt_of_lt_of_le hlt hb)

/-- The evaluations at fuel `n` provide a sound evaluation one level down for every permission
of rank at most `n`. -/
theorem subSound_some (hg : c.Exact rank) {n : Nat}
    (ih : ∀ (b : Nat) (auth : Authority K) (cache : PermissionCache) (used : List K),
      b ≤ n → Within rank b auth → c.CacheSound rank b cache →
      (c.satisfiedAuthority n auth cache used).1 = c.authorityHolds (c.holds rank) auth ∧
        c.Extends rank b cache (c.satisfiedAuthority n auth cache used).2.1) :
    c.SubSound rank (n + 1) (some (c.satisfiedAuthority n)) :=
  fun e auth cache used _ hlt hauth hc =>
    ⟨_, rfl, ih (rank e) auth cache used (by omega) (hg.within hauth) hc⟩

/-- The recursion, on the fuel: evaluated within its bound from a sound cache, an authority gets
its ideal verdict, and the cache is only extended below the bound. -/
theorem satisfiedAuthority_sound (hg : c.Exact rank) :
    ∀ (f b : Nat) (auth : Authority K) (cache : PermissionCache) (used : List K),
      b ≤ f → Within rank b auth → c.CacheSound rank b cache →
      (c.satisfiedAuthority f auth cache used).1 = c.authorityHolds (c.holds rank) auth ∧
        c.Extends rank b cache (c.satisfiedAuthority f auth cache used).2.1
  | 0, b, auth, cache, used, hb, ha, hc => by
    -- at the depth limit nothing is evaluated, and nothing below the bound is visited
    have hsub : c.SubSound rank b none := fun _ _ _ _ _ hlt => absurd hlt (by omega)
    obtain ⟨h₁, h₂⟩ := c.satisfiedAuthority_eq 0 auth cache used
    obtain ⟨h₃, h₄⟩ := c.tallyLoop_metaPermissions hg hsub ha hc used
    exact ⟨h₁.trans h₃, h₂ ▸ h₄⟩
  | n + 1, b, auth, cache, used, hb, ha, hc => by
    have hsub := (subSound_some hg (satisfiedAuthority_sound hg n)).mono hb
    obtain ⟨h₁, h₂⟩ := c.satisfiedAuthority_eq (n + 1) auth cache used
    obtain ⟨h₃, h₄⟩ := c.tallyLoop_metaPermissions hg hsub ha hc used
    exact ⟨h₁.trans h₃, h₂ ▸ h₄⟩

/-! ## The checker refines the ideal semantics -/

/-- `satisfied(authority)` decides whether the authority holds. -/
theorem satisfied_eq_authorityHolds (hg : c.Exact rank) {auth : Authority K}
    (ha : Within rank c.recursionDepthLimit auth) (used : List K) :
    (c.satisfied auth used).1 = c.authorityHolds (c.holds rank) auth :=
  (c.satisfiedAuthority_sound hg _ _ auth _ used le_rfl ha (CacheSound.init _)).1

theorem mem_of_lookup_eq_some {α β : Type} [DecidableEq α] :
    ∀ {l : List (α × β)} {a : α} {b : β}, l.lookup a = some b → (a, b) ∈ l
  | (k, v) :: l, a, b, h => by
    by_cases hk : a = k
    · subst hk
      rw [List.lookup_cons_self, Option.some.injEq] at h
      subst h
      exact List.mem_cons_self
    · rw [List.lookup_cons, beq_false_of_ne hk] at h
      exact List.mem_cons_of_mem _ (mem_of_lookup_eq_some h)

omit [DecidableEq K] in
/-- A graph given as a table is exact when every row is evaluated exactly within its rank. -/
theorem Exact.of_rows {rows : List (PermissionLevel × Authority K)}
    (hc : c.permissionToAuthority = fun p => rows.lookup p)
    (h : ∀ row ∈ rows, Within rank (rank row.1) row.2) : c.Exact rank := by
  have hrow : ∀ p auth, c.permissionToAuthority p = some auth → Within rank (rank p) auth :=
    fun p auth hp => h (p, auth) (mem_of_lookup_eq_some (by simpa [hc] using hp))
  exact ⟨fun p auth hp => fun w hw => ((hrow p auth hp).accounts w hw).1,
    fun p auth hp => fun w hw => ((hrow p auth hp).accounts w hw).2,
    fun p auth hp => (hrow p auth hp).threshold⟩

omit [DecidableEq K] in
theorem Exact.of_le {c' : AuthorityChecker K} (hg : c.Exact rank) (hle : c.Le c') :
    c'.Exact rank := by
  refine ⟨?_, ?_, ?_⟩
  · simpa only [Ranked, hle.graph] using hg.ranked
  · simpa only [hle.graph] using hg.named
  · simpa only [hle.graph] using hg.threshold

/-- A rank for `depthCacheGraph`: `Q` at the bottom, `S` and `R2` above it, `R` on top. -/
def depthCacheRank (p : PermissionLevel) : Nat :=
  if p.actor = ⟨11⟩ then 2 else if p.actor = ⟨10⟩ ∨ p.actor = ⟨12⟩ then 1 else 0

end AuthorityChecker

end Safeos
