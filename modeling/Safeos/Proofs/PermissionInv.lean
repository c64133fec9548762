import Safeos.Proofs.PermissionForest
import Safeos.Lib.Run

/-!
# The permission hierarchy

In every state the native actions reach from genesis, the permission index is a forest: every
permission but the dummy belongs to an existing account, is a root exactly when it is `owner`,
and otherwise hangs under an older permission of its own account; `active` hangs under `owner`,
and every account has both. `newaccount` and `updateauth` only add leaves with fresh ids,
`updateauth` on an existing permission only replaces its authority, and `deleteauth` only
removes a leaf that is neither `owner` nor `active`.

On such an index `permission_object::satisfies` terminates, and decides whether a permission is
the other one or one of its ancestors (`satisfies_iff`).
-/

namespace Safeos

namespace Native

variable {K : Type}

/-! ## Lookups -/

@[simp] theorem empty_eq_false {n : Name} : n.empty = false ↔ n ≠ ⟨0⟩ := by
  rcases n with ⟨v⟩
  simp [Name.empty]

theorem findAccount_eq_some {s : State K} {n : Name} {a : AccountObject}
    (h : findAccount s n = some a) : a ∈ s.accounts ∧ a.name = n :=
  ⟨List.mem_of_find?_eq_some h, by simpa using List.find?_some h⟩

theorem findAccount_eq_none {s : State K} {n : Name} :
    findAccount s n = none ↔ ∀ a ∈ s.accounts, a.name ≠ n := by
  simp [findAccount, List.find?_eq_none]

theorem getAccount_eq_ok {s : State K} {n : Name} {a : AccountObject} :
    getAccount s n = .ok a ↔ findAccount s n = some a := by
  unfold getAccount
  cases findAccount s n <;> simp

theorem findPermission_eq_ok {s : State K} {level : PermissionLevel}
    {r : Option (PermissionObject K)} :
    findPermission s level = .ok r ↔ (level.actor ≠ ⟨0⟩ ∧ level.permission ≠ ⟨0⟩) ∧
      (s.permissions.find? fun p => p.owner == level.actor && p.name == level.permission) = r := by
  simp [findPermission]

/-- What `get_permission` returns: a permission of the named account with the named name. -/
theorem getPermission_ok {s : State K} {level : PermissionLevel} {p : PermissionObject K}
    (h : getPermission s level = .ok p) :
    level.actor ≠ ⟨0⟩ ∧ p ∈ s.permissions ∧ p.owner = level.actor ∧ p.name = level.permission := by
  simp only [getPermission, Except.bind_eq_ok, findPermission_eq_ok] at h
  obtain ⟨r, ⟨⟨hactor, -⟩, rfl⟩, h⟩ := h
  cases hr : s.permissions.find? fun p => p.owner == level.actor && p.name == level.permission with
  | none => simp [hr] at h
  | some q =>
    simp only [hr, Except.pure_eq_ok] at h
    subst h
    have := List.find?_some hr
    simp only [Bool.and_eq_true, beq_iff_eq] at this
    exact ⟨hactor, List.mem_of_find?_eq_some hr, this⟩


/-- The invariant of the native actions. -/
structure Inv (s : State K) : Prop where
  forest : Forest s.nodes s.accounts s.nextPermissionId
  roles : Roles s.nodes s.accounts

/-! ## What each action does to the index -/

theorem nodes_createPermission (s : State K) (account name : Name) (parent : Nat)
    (auth : Authority K) :
    (createPermission s account name parent auth).1.nodes =
      s.nodes ++ [⟨s.nextPermissionId, parent, account, name⟩] := by
  simp [createPermission, State.nodes, PermissionObject.node]

theorem nodes_modifyPermission (s : State K) (p : PermissionObject K) (auth : Authority K) :
    (modifyPermission s p auth).nodes = s.nodes := by
  simp only [modifyPermission, State.nodes, List.map_map]
  refine List.map_congr_left fun q _ => ?_
  by_cases hq : q.id = p.id <;> simp [hq, PermissionObject.node]

/-- `deleteauth`: a permission of the account that is neither `owner` nor `active` and has no
children is removed. -/
theorem deleteauth_ok {s s' : State K} {auths : List PermissionLevel} {account permission : Name}
    (h : deleteauth s auths account permission = .ok s') :
    ∃ p ∈ s.permissions, p.owner = account ∧ p.name = permission ∧ account ≠ ⟨0⟩ ∧
      permission ≠ Config.ownerName ∧ permission ≠ Config.activeName ∧
      (∀ q ∈ s.permissions, q.parent ≠ p.id) ∧
      s' = { s with permissions := s.permissions.filter (·.id != p.id) } := by
  simp only [deleteauth, removePermission, Except.bind_eq_ok, eosioAssert_eq_ok,
    Except.pure_eq_ok] at h
  obtain ⟨-, -, -, hact, -, hown, -, -, p, hp, -, hleaf, rfl⟩ := h
  obtain ⟨hacc, hmem, howner, hname⟩ := getPermission_ok hp
  refine ⟨p, hmem, howner, hname, hacc, by simpa using hown, by simpa using hact, ?_, rfl⟩
  intro q hq hpar
  simp only [Bool.not_eq_true', List.any_eq_false] at hleaf
  exact hleaf q hq (by simp [hpar])

/-- `linkauth` and `unlinkauth` only write links. -/
theorem linkauth_ok {s s' : State K} {auths : List PermissionLevel}
    {account code type requirement : Name}
    (h : linkauth s auths account code type requirement = .ok s') :
    s'.accounts = s.accounts ∧ s'.permissions = s.permissions ∧
      s'.nextPermissionId = s.nextPermissionId := by
  simp only [linkauth, Except.bind_eq_ok] at h
  obtain ⟨-, -, -, -, -, -, -, -, -, -, h⟩ := h
  split at h
  · simp only [Except.bind_eq_ok, Except.pure_eq_ok] at h
    obtain ⟨-, -, rfl⟩ := h
    exact ⟨rfl, rfl, rfl⟩
  · simp only [Except.pure_eq_ok] at h
    subst h
    exact ⟨rfl, rfl, rfl⟩

theorem unlinkauth_ok {s s' : State K} {auths : List PermissionLevel} {account code type : Name}
    (h : unlinkauth s auths account code type = .ok s') :
    s'.accounts = s.accounts ∧ s'.permissions = s.permissions ∧
      s'.nextPermissionId = s.nextPermissionId := by
  simp only [unlinkauth, Except.bind_eq_ok] at h
  obtain ⟨-, -, h⟩ := h
  split at h
  · simp only [Except.pure_eq_ok] at h
    subst h
    exact ⟨rfl, rfl, rfl⟩
  · exact absurd h Except.throw_ne_ok

/-- `newaccount`: a fresh, named account with its `owner` root and its `active` under it. -/
theorem newaccount_ok [LT K] [DecidableRel (α := K) (· < ·)] {s s' : State K}
    {auths : List PermissionLevel} {creator name : Name} {owner active : Authority K} (h : newaccount s auths creator name owner active = .ok s') :
    name ≠ ⟨0⟩ ∧ findAccount s name = none ∧ s'.accounts = s.accounts ++ [⟨name, false⟩] ∧
      s'.nodes = s.nodes ++ [⟨s.nextPermissionId, 0, name, Config.ownerName⟩,
        ⟨s.nextPermissionId + 1, s.nextPermissionId, name, Config.activeName⟩] ∧
      s'.nextPermissionId = s.nextPermissionId + 2 := by
  simp only [newaccount, Except.bind_eq_ok, eosioAssert_eq_ok, Bool.not_eq_true', empty_eq_false,
    Option.isNone_iff_eq_none] at h
  obtain ⟨-, -, -, -, -, -, -, hname, -, -, -, -, -, -, -, hfresh, -, -, -, -, h⟩ := h
  simp only [createPermission, Except.pure_eq_ok] at h
  subst h
  refine ⟨hname, hfresh, rfl, ?_, rfl⟩
  simp [State.nodes, PermissionObject.node]

/-- `updateauth`: either the authority of an existing permission is replaced, or a new
permission of an existing account takes the next id, under the named parent (or as a root when
it is `owner`). -/
theorem updateauth_ok [LT K] [DecidableRel (α := K) (· < ·)] {env : Env} {s s' : State K}
    {auths : List PermissionLevel} {account permission parent : Name} {auth : Authority K}
    (h : updateauth env s auths account permission parent auth = .ok s') :
    (∃ p ∈ s.permissions, s' = modifyPermission s p auth) ∨
    (∃ parentId, (∃ a ∈ s.accounts, a.name = account) ∧
      (∀ p ∈ s.permissions, p.owner = account → p.name ≠ permission) ∧
      ((permission = Config.ownerName ∧ parentId = 0) ∨
        (permission ≠ Config.ownerName ∧
          ∃ q ∈ s.permissions, q.id = parentId ∧ q.owner = account ∧ q.name = parent)) ∧
      (permission = Config.activeName → parent = Config.ownerName) ∧
      s' = (createPermission s account permission parentId auth).1) := by
  simp only [updateauth, Except.bind_eq_ok, eosioAssert_eq_ok, Bool.not_eq_true', empty_eq_false,
    getAccount_eq_ok, findPermission_eq_ok] at h
  obtain ⟨-, -, -, -, -, -, -, -, acct, hacct, -, -, -, hactive, -, -, -, -, -, -, existing,
    ⟨-, hfind⟩, parentId, hparent, h⟩ := h
  cases existing with
  | some p =>
    -- the permission exists: only its authority changes
    simp only [Except.bind_eq_ok, Except.pure_eq_ok] at h
    obtain ⟨-, -, rfl⟩ := h
    exact .inl ⟨p, List.mem_of_find?_eq_some hfind, rfl⟩
  | none =>
    simp only [Except.pure_eq_ok] at h
    refine .inr ⟨parentId, ?_, ?_, ?_, ?_, h.symm⟩
    · obtain ⟨hmem, hname⟩ := findAccount_eq_some hacct
      exact ⟨acct, hmem, hname⟩
    · intro p hp hown hname
      have := List.find?_eq_none.1 hfind p hp
      simp [hown, hname] at this
    · by_cases hown : permission = Config.ownerName
      · simp only [hown, if_true, Except.pure_eq_ok] at hparent
        exact .inl ⟨hown, hparent.symm⟩
      · simp only [hown, if_false, Except.bind_eq_ok, Except.pure_eq_ok] at hparent
        obtain ⟨q, hq, rfl⟩ := hparent
        obtain ⟨-, hmem, howner, hname⟩ := getPermission_ok hq
        exact .inr ⟨hown, q, hmem, rfl, howner, hname⟩
    · intro hact
      simpa [hact] using hactive

/-! ## The invariant along every run -/

namespace Inv

variable {s s' : State K}

theorem of_eq (h : Inv s) (hn : s'.nodes = s.nodes) (ha : s'.accounts = s.accounts)
    (hx : s'.nextPermissionId = s.nextPermissionId) : Inv s' := by
  obtain ⟨hf, hr⟩ := h
  refine ⟨?_, ?_⟩
  · rw [hn, ha, hx]
    exact hf
  · rw [hn, ha]
    exact hr

/-- `newaccount` adds the account, then its `owner` root, then `active` under it. -/
theorem newaccount [LT K] [DecidableRel (α := K) (· < ·)] (hs : Inv s) {auths : List PermissionLevel} {creator name : Name}
    {owner active : Authority K} (h : Native.newaccount s auths creator name owner active = .ok s') :
    Inv s' := by
  obtain ⟨hname, hfresh, hacc, hnodes, hnext⟩ := newaccount_ok h
  have hnone := hs.forest.no_owner hname (findAccount_eq_none.1 hfresh)
  have hn := hs.forest.next_pos
  set n := s.nextPermissionId
  let a : AccountObject := ⟨name, false⟩
  let ownerNode : PermissionNode := ⟨n, 0, name, Config.ownerName⟩
  let activeNode : PermissionNode := ⟨n + 1, n, name, Config.activeName⟩
  have ha : a ∈ s.accounts ++ [a] := List.mem_append_right _ (List.mem_singleton_self _)
  have hown : ownerNode ∈ s.nodes ++ [ownerNode] := List.mem_append_right _ (List.mem_singleton_self _)
  have f₁ := hs.forest.addAccount (a := a) hname
  have f₂ := f₁.create (p := ownerNode) rfl ⟨a, ha, rfl⟩ (by simp [ownerNode])
    (fun h₀ => absurd rfl h₀) (fun h₀ => absurd h₀ ownerName_ne_activeName)
    (fun q hq ho => absurd ho (hnone q hq))
  have f₃ := f₂.create (p := activeNode) rfl ⟨a, ha, rfl⟩
    (iff_of_false (by simp [activeNode]; omega) (Ne.symm ownerName_ne_activeName))
    (fun _ => ⟨ownerNode, hown, rfl, rfl⟩) (fun _ => ⟨ownerNode, hown, rfl, rfl, rfl⟩) ?_
  · refine ⟨?_, ?_⟩
    · rw [hnodes, hacc, hnext]
      simpa only [List.append_assoc, List.singleton_append] using f₃
    · -- the old accounts keep their permissions, the new one has both
      rw [hnodes, hacc]
      intro b hb
      rcases List.mem_append.1 hb with hb | hb
      · exact hs.roles.append _ b hb
      · rw [List.mem_singleton.1 hb]
        exact ⟨⟨ownerNode, by simp [ownerNode], rfl, rfl⟩, ⟨activeNode, by simp [activeNode], rfl, rfl⟩⟩
  · intro q hq ho
    rcases List.mem_append.1 hq with hq | hq
    · exact absurd ho (hnone q hq)
    · rw [List.mem_singleton.1 hq]
      exact ownerName_ne_activeName

/-- `updateauth` either keeps every node, or adds a leaf under a permission of its account. -/
theorem updateauth [LT K] [DecidableRel (α := K) (· < ·)] (hs : Inv s) {env : Env} {auths : List PermissionLevel}
    {account permission parent : Name} {auth : Authority K}
    (h : Native.updateauth env s auths account permission parent auth = .ok s') : Inv s' := by
  rcases updateauth_ok h with ⟨p, -, rfl⟩ |
      ⟨parentId, ⟨a, ha, hname⟩, hfresh, hparent, hactive, rfl⟩
  · exact hs.of_eq (nodes_modifyPermission s p auth) rfl rfl
  · have hacc0 : account ≠ ⟨0⟩ := hname ▸ hs.forest.named a ha
    refine ⟨?_, ?_⟩
    · rw [nodes_createPermission]
      refine hs.forest.create rfl ⟨a, ha, hname⟩ ?_ ?_ ?_ ?_
      · -- a root exactly when it is `owner`: a named parent is not the dummy
        rcases hparent with ⟨hown, rfl⟩ | ⟨hown, q, hq, rfl, hqown, -⟩
        · simp [hown]
        · have hq0 := hs.forest.id_ne_zero (mem_nodes hq)
            (by rw [show q.node.owner = account from hqown]; exact hacc0)
          exact iff_of_false hq0 hown
      · rcases hparent with ⟨-, rfl⟩ | ⟨-, q, hq, rfl, hqown, -⟩
        · exact fun h₀ => absurd rfl h₀
        · exact fun _ => ⟨q.node, mem_nodes hq, rfl, hqown⟩
      · intro hact
        rcases hparent with ⟨hown, -⟩ | ⟨-, q, hq, rfl, hqown, hqname⟩
        · exact absurd (hown.symm.trans hact) ownerName_ne_activeName
        · exact ⟨q.node, mem_nodes hq, rfl, hqown, hqname.trans (hactive hact)⟩
      · intro q hq hqown
        obtain ⟨p, hp, rfl⟩ := exists_of_mem_nodes hq
        exact hfresh p hp hqown
    · rw [nodes_createPermission]
      exact hs.roles.append _

/-- `deleteauth` removes a leaf that is neither `owner` nor `active`. -/
theorem deleteauth (hs : Inv s) {auths : List PermissionLevel} {account permission : Name}
    (h : Native.deleteauth s auths account permission = .ok s') : Inv s' := by
  obtain ⟨p, hp, hown, hname, hacc0, hnotown, hnotact, hleaf, rfl⟩ := deleteauth_ok h
  have hnodes : ({ s with permissions := s.permissions.filter (·.id != p.id) } : State K).nodes =
      s.nodes.filter (·.id != p.node.id) := by
    simp only [State.nodes, List.filter_map]
    rfl
  have hp0 : p.node.id ≠ 0 := hs.forest.id_ne_zero (mem_nodes hp)
    (by rw [show p.node.owner = account from hown]; exact hacc0)
  have hleaf' : ∀ q ∈ s.nodes, q.parent ≠ p.node.id := by
    intro q hq
    obtain ⟨r, hr, rfl⟩ := exists_of_mem_nodes hq
    exact hleaf r hr
  refine ⟨?_, ?_⟩
  · rw [hnodes]
    exact hs.forest.remove hp0 hleaf'
  · rw [hnodes]
    have hpname : p.node.name = permission := hname
    exact hs.roles.remove hs.forest (mem_nodes hp) (hpname ▸ hnotown) (hpname ▸ hnotact)

theorem init (initialKey : K) : Inv (State.init initialKey) := by
  have hn : (State.init initialKey).nodes =
      [dummyNode, ⟨1, 0, Config.systemAccountName, Config.ownerName⟩,
        ⟨2, 1, Config.systemAccountName, Config.activeName⟩] := rfl
  have ha : (State.init initialKey).accounts = [⟨Config.systemAccountName, true⟩] := rfl
  have hx : (State.init initialKey).nextPermissionId = 3 := rfl
  refine ⟨?_, ?_⟩
  · rw [hn, ha, hx]
    exact ⟨by decide, by decide, by decide, by decide, by decide, by decide, by decide, by decide,
      by decide⟩
  · rw [hn, ha]
    unfold Roles
    decide

/-- Every native action keeps the hierarchy. -/
theorem step [LT K] [DecidableRel (α := K) (· < ·)] (env : Env) :
    Transition.Preserves Inv (Native.step (K := K) env) := by
  rintro s ⟨auths, act⟩ s' hs h
  cases act with
  | newaccount creator name owner active => exact hs.newaccount h
  | updateauth account permission parent auth => exact hs.updateauth h
  | deleteauth account permission => exact hs.deleteauth h
  | linkauth account code type requirement =>
    obtain ⟨h₁, h₂, h₃⟩ := linkauth_ok h
    exact hs.of_eq (by simp only [State.nodes, h₂]) h₁ h₃
  | unlinkauth account code type =>
    obtain ⟨h₁, h₂, h₃⟩ := unlinkauth_ok h
    exact hs.of_eq (by simp only [State.nodes, h₂]) h₁ h₃

end Inv

/-! ## `satisfies` on a reachable index -/

theorem exists_of_exists_node {s : State K} {P : PermissionNode → Prop}
    (h : ∃ q ∈ s.nodes, P q) : ∃ q ∈ s.permissions, P q.node := by
  obtain ⟨q, hq, hP⟩ := h
  obtain ⟨p, hp, rfl⟩ := exists_of_mem_nodes hq
  exact ⟨p, hp, hP⟩

namespace Inv

variable {s : State K}

theorem ids_nodup (hs : Inv s) : (s.permissions.map (·.id)).Nodup := by
  simpa [State.nodes, List.map_map, Function.comp_def, PermissionObject.node] using hs.forest.ids

theorem eq_of_id (hs : Inv s) {p q : PermissionObject K} (hp : p ∈ s.permissions)
    (hq : q ∈ s.permissions) (he : p.id = q.id) : p = q :=
  List.inj_on_of_nodup_map hs.ids_nodup hp hq he

/-- `find` in the `by_id` index returns the permission with that id. -/
theorem findById_eq (hs : Inv s) {q : PermissionObject K} (hq : q ∈ s.permissions) :
    findById s.permissions q.id = some q := by
  cases h : findById s.permissions q.id with
  | none =>
    have := List.find?_eq_none.1 h q hq
    simp at this
  | some r =>
    have hid : r.id = q.id := by simpa using List.find?_some h
    rw [hs.eq_of_id (List.mem_of_find?_eq_some h) hq hid]

/-- Only the dummy has the empty owner. -/
theorem dummy_of_owner (hs : Inv s) {p : PermissionObject K} (hp : p ∈ s.permissions)
    (ho : p.owner = ⟨0⟩) : p.id = 0 ∧ p.parent = 0 := by
  have h := hs.forest.eq_dummy (mem_nodes hp) ho
  exact ⟨congrArg PermissionNode.id h, congrArg PermissionNode.parent h⟩

theorem owner_of_id (hs : Inv s) {p : PermissionObject K} (hp : p ∈ s.permissions)
    (h0 : p.id = 0) : p.owner = ⟨0⟩ :=
  congrArg PermissionNode.owner (hs.forest.eq_of_id (mem_nodes hp) hs.forest.dummy h0)

/-- The loop of `satisfies`, from a permission of id below the fuel: it answers whether `a` is a
proper ancestor of that permission. -/
theorem satisfiesWalk_spec (hs : Inv s) {a : Nat} (ha : a ≠ 0) :
    ∀ (fuel : Nat) (q : PermissionObject K), q ∈ s.permissions → q.id < fuel →
      ∃ r, satisfiesWalk s.permissions a fuel (some q) = some r ∧
        (r = true ↔ Relation.TransGen (ParentOf s.nodes) a q.id)
  | 0, _, _, hlt => absurd hlt (Nat.not_lt_zero _)
  | fuel + 1, q, hq, hlt => by
    have hiff : Relation.TransGen (ParentOf s.nodes) a q.id ↔ q.parent ≠ 0 ∧
        (a = q.parent ∨ Relation.TransGen (ParentOf s.nodes) a q.parent) :=
      hs.forest.transGen_iff (mem_nodes hq)
    by_cases h₁ : a = q.parent
    · -- `id == parent->parent`
      refine ⟨true, by simp [satisfiesWalk, h₁], ?_⟩
      simp only [true_iff]
      exact hiff.2 ⟨h₁ ▸ ha, .inl h₁⟩
    · by_cases h₂ : q.parent = 0
      · -- `parent->parent._id == 0`: a root
        refine ⟨false, by simp [satisfiesWalk, h₂, ha], ?_⟩
        simp only [Bool.false_eq_true, false_iff]
        exact fun ht => (hiff.1 ht).1 h₂
      · -- climb to the parent, an older permission
        have hq0 : q.node.id ≠ 0 := fun h0 =>
          h₂ (congrArg PermissionNode.parent (hs.forest.eq_of_id (mem_nodes hq) hs.forest.dummy h0))
        obtain ⟨q', hq', hid, -, hlt'⟩ :=
          exists_of_exists_node (hs.forest.parent _ (mem_nodes hq) hq0 h₂)
        have hid : q'.id = q.parent := hid
        have hfind : findById s.permissions q.parent = some q' := hid ▸ hs.findById_eq hq'
        obtain ⟨r, hr, hriff⟩ :=
          satisfiesWalk_spec hs ha fuel q' hq' (by have : q'.id < q.id := hlt'; omega)
        refine ⟨r, by simp [satisfiesWalk, h₁, h₂, hfind, hr], ?_⟩
        rw [hriff, hiff, hid]
        simp [h₁, h₂]

/-- On a reachable index `satisfies` terminates, and holds exactly when `a` is `b` or one of its
ancestors. -/
theorem satisfies_iff (hs : Inv s) {a b : PermissionObject K} (ha : a ∈ s.permissions)
    (hb : b ∈ s.permissions) {fuel : Nat} (hfuel : b.id ≤ fuel) :
    ∃ r, satisfies s.permissions fuel a b = some r ∧
      (r = true ↔ a = b ∨ Relation.TransGen (ParentOf s.nodes) a.id b.id) := by
  have hpath : Relation.TransGen (ParentOf s.nodes) a.id b.id ↔ b.parent ≠ 0 ∧
      (a.id = b.parent ∨ Relation.TransGen (ParentOf s.nodes) a.id b.parent) :=
    hs.forest.transGen_iff (mem_nodes hb)
  by_cases hown : a.owner = b.owner
  · by_cases hid : a.id = b.id ∨ a.id = b.parent
    · refine ⟨true, ?_, ?_⟩
      · rcases hid with hid | hid <;> simp [satisfies, hown, hid]
      · simp only [true_iff]
        rcases hid with hid | hid
        · exact .inl (hs.eq_of_id ha hb hid)
        · by_cases ha0 : a.id = 0
          · -- `a` is the dummy, and so is `b`, the only permission of the empty owner
            have hb0 := (hs.dummy_of_owner hb (hown ▸ hs.owner_of_id ha ha0)).1
            exact .inl (hs.eq_of_id ha hb (ha0.trans hb0.symm))
          · exact .inr (.single ⟨ha0, b.node, mem_nodes hb, rfl, hid.symm⟩)
    · simp only [not_or] at hid
      obtain ⟨hne, hnp⟩ := hid
      -- neither is the dummy: the dummy is the only permission of the empty owner
      have ha0 : a.id ≠ 0 := fun ha0 =>
        hne (ha0.trans (hs.dummy_of_owner hb (hown ▸ hs.owner_of_id ha ha0)).1.symm)
      have hb0 : b.id ≠ 0 := fun hb0 =>
        ha0 (hs.dummy_of_owner ha (hown.trans (hs.owner_of_id hb hb0))).1
      -- the walk starts at the parent of `b`: the dummy, or an older permission
      obtain ⟨q, hq, hqid, hqlt⟩ : ∃ q ∈ s.permissions, q.id = b.parent ∧ q.id < b.id := by
        by_cases hbp : b.parent = 0
        · obtain ⟨d, hd, hdn⟩ := exists_of_mem_nodes hs.forest.dummy
          have hd0 : d.id = 0 := congrArg PermissionNode.id hdn
          exact ⟨d, hd, hd0.trans hbp.symm, by omega⟩
        · obtain ⟨q, hq, h₁, -, h₂⟩ :=
            exists_of_exists_node (hs.forest.parent _ (mem_nodes hb) hb0 hbp)
          exact ⟨q, hq, h₁, h₂⟩
      obtain ⟨r, hr, hriff⟩ := hs.satisfiesWalk_spec ha0 fuel q hq (by omega)
      refine ⟨r, ?_, ?_⟩
      · have hfind : findById s.permissions b.parent = some q := hqid ▸ hs.findById_eq hq
        simp [satisfies, hown, hne, hnp, hfind, hr]
      · rw [hriff, hqid, hpath]
        have hab : a ≠ b := fun h => hne (h ▸ rfl)
        constructor
        · intro ht
          exact .inr ⟨by have := hs.forest.transGen_lt ht; omega, .inr ht⟩
        · rintro (h | ⟨-, h | h⟩)
          · exact absurd h hab
          · exact absurd h hnp
          · exact h
  · -- different accounts: neither the same permission nor an ancestor
    refine ⟨false, by simp [satisfies, hown], ?_⟩
    simp only [Bool.false_eq_true, false_iff, not_or]
    exact ⟨fun h => hown (h ▸ rfl),
      fun ht => hown (hs.forest.transGen_owner ht (mem_nodes ha) (mem_nodes hb) rfl rfl)⟩

end Inv

/-- Along every run of the native actions from genesis the permission index is a forest with one
`owner` root per account: a permission other than the dummy is a root exactly when it is `owner`,
and otherwise hangs under an older permission of its account, `active` under `owner`; every
account has both; the parent relation has no cycle; and `satisfies` terminates and holds exactly
when a permission is the other one or one of its ancestors. -/
theorem permission_hierarchy [LT K] [DecidableRel (α := K) (· < ·)] (env : Env) (initialKey : K) (reqs : List (Request K)) :
    let s := Transition.run (step env) (State.init initialKey) reqs
    (∀ p ∈ s.permissions, p.id ≠ 0 →
      (p.parent = 0 ↔ p.name = Config.ownerName) ∧
      (p.parent ≠ 0 → ∃ q ∈ s.permissions, q.id = p.parent ∧ q.owner = p.owner ∧ q.id < p.id) ∧
      (p.name = Config.activeName →
        ∃ q ∈ s.permissions, q.id = p.parent ∧ q.owner = p.owner ∧ q.name = Config.ownerName)) ∧
    (∀ a ∈ s.accounts, (∃ p ∈ s.permissions, p.owner = a.name ∧ p.name = Config.ownerName) ∧
      (∃ p ∈ s.permissions, p.owner = a.name ∧ p.name = Config.activeName)) ∧
    (∀ x, ¬ Relation.TransGen (ParentOf s.nodes) x x) ∧
    (∀ p ∈ s.permissions, p.id ≠ 0 → ∃ r ∈ s.permissions, r.owner = p.owner ∧
      r.name = Config.ownerName ∧ r.parent = 0 ∧ Relation.ReflTransGen (ParentOf s.nodes) r.id p.id) ∧
    (∀ p ∈ s.permissions, ∀ q ∈ s.permissions, p.owner = q.owner → p.name = q.name → p = q) ∧
    (∀ a ∈ s.permissions, ∀ b ∈ s.permissions, ∀ fuel, b.id ≤ fuel →
      ∃ r, satisfies s.permissions fuel a b = some r ∧
        (r = true ↔ a = b ∨ Relation.TransGen (ParentOf s.nodes) a.id b.id)) := by
  intro s
  have hs : Inv s := (Inv.step env).run (Inv.init initialKey) reqs
  refine ⟨?_, ?_, hs.forest.acyclic, ?_, ?_, ?_⟩
  · intro p hp hp0
    exact ⟨hs.forest.root _ (mem_nodes hp) hp0,
      fun hpar => exists_of_exists_node (hs.forest.parent _ (mem_nodes hp) hp0 hpar),
      fun hact => exists_of_exists_node (hs.forest.active _ (mem_nodes hp) hp0 hact)⟩
  · intro a ha
    obtain ⟨h₁, h₂⟩ := hs.roles a ha
    exact ⟨exists_of_exists_node h₁, exists_of_exists_node h₂⟩
  · intro p hp hp0
    exact exists_of_exists_node (hs.forest.exists_root _ _ (mem_nodes hp) rfl hp0)
  · intro p hp q hq hown hname
    have h := hs.forest.unique _ (mem_nodes hp) _ (mem_nodes hq) hown hname
    exact hs.eq_of_id hp hq (congrArg PermissionNode.id h)
  · intro a ha b hb fuel hfuel
    exact hs.satisfies_iff ha hb hfuel

end Native

end Safeos
