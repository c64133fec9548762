import Safeos.Auth.Native
import Mathlib.Logic.Relation
import Mathlib.Data.List.Nodup

/-!
# The permission index as a forest

A permission's place in the hierarchy is its node: id, parent id, owner and name. `Forest`
says what the native actions keep true of the nodes: ids are distinct and below the next id,
the dummy holds id `0`, every other permission belongs to an existing account, is a root
exactly when it is `owner`, and otherwise hangs under an older permission of its account. Adding
a leaf (`Forest.create`) and removing one (`Forest.remove`) keep it so. On a forest the parent
relation has no cycle, every permission lies under its account's `owner`, and the last step of
a path to a permission is its parent (`Forest.transGen_iff`), which is what the loop of
`permission_object::satisfies` follows.
-/

namespace Safeos

namespace Native

variable {K : Type}

theorem ownerName_ne_activeName : Config.ownerName ≠ Config.activeName := by decide

/-- A permission's place in the hierarchy: everything but its authority. -/
structure PermissionNode where
  id : Nat
  parent : Nat
  owner : Name
  name : Name
deriving DecidableEq

/-- The node of a permission. -/
def PermissionObject.node (p : PermissionObject K) : PermissionNode :=
  ⟨p.id, p.parent, p.owner, p.name⟩

/-- The nodes of the permission index. -/
def State.nodes (s : State K) : List PermissionNode := s.permissions.map PermissionObject.node

/-- The node of the dummy permission. -/
def dummyNode : PermissionNode := ⟨0, 0, ⟨0⟩, ⟨0⟩⟩

theorem mem_nodes {s : State K} {p : PermissionObject K} (h : p ∈ s.permissions) :
    p.node ∈ s.nodes :=
  List.mem_map_of_mem h

theorem exists_of_mem_nodes {s : State K} {q : PermissionNode} (h : q ∈ s.nodes) :
    ∃ p ∈ s.permissions, p.node = q :=
  List.mem_map.1 h

/-- The index as a forest: distinct ids below the next id, the dummy at id `0`, every other
permission of an existing account, a root exactly when it is `owner`, otherwise under an older
permission of its account, `active` under `owner`; and (`by_owner`) no account with two
permissions of one name. -/
structure Forest (nodes : List PermissionNode) (accounts : List AccountObject) (next : Nat) :
    Prop where
  ids : (nodes.map (·.id)).Nodup
  lt_next : ∀ p ∈ nodes, p.id < next
  dummy : dummyNode ∈ nodes
  named : ∀ a ∈ accounts, a.name ≠ ⟨0⟩
  account : ∀ p ∈ nodes, p.id ≠ 0 → ∃ a ∈ accounts, a.name = p.owner
  root : ∀ p ∈ nodes, p.id ≠ 0 → (p.parent = 0 ↔ p.name = Config.ownerName)
  parent : ∀ p ∈ nodes, p.id ≠ 0 → p.parent ≠ 0 →
    ∃ q ∈ nodes, q.id = p.parent ∧ q.owner = p.owner ∧ q.id < p.id
  active : ∀ p ∈ nodes, p.id ≠ 0 → p.name = Config.activeName →
    ∃ q ∈ nodes, q.id = p.parent ∧ q.owner = p.owner ∧ q.name = Config.ownerName
  unique : ∀ p ∈ nodes, ∀ q ∈ nodes, p.owner = q.owner → p.name = q.name → p = q

/-- Every account has its `owner` and its `active` permission. -/
def Roles (nodes : List PermissionNode) (accounts : List AccountObject) : Prop :=
  ∀ a ∈ accounts, (∃ p ∈ nodes, p.owner = a.name ∧ p.name = Config.ownerName) ∧
    (∃ p ∈ nodes, p.owner = a.name ∧ p.name = Config.activeName)

namespace Forest

variable {nodes : List PermissionNode} {accounts : List AccountObject} {next : Nat}

theorem eq_of_id (h : Forest nodes accounts next) {p q : PermissionNode} (hp : p ∈ nodes)
    (hq : q ∈ nodes) (he : p.id = q.id) : p = q :=
  List.inj_on_of_nodup_map h.ids hp hq he

theorem next_pos (h : Forest nodes accounts next) : 0 < next :=
  h.lt_next _ h.dummy

/-- Only the dummy has the empty owner. -/
theorem eq_dummy (h : Forest nodes accounts next) {p : PermissionNode} (hp : p ∈ nodes)
    (ho : p.owner = ⟨0⟩) : p = dummyNode := by
  by_cases hid : p.id = 0
  · exact h.eq_of_id hp h.dummy hid
  · obtain ⟨a, ha, hname⟩ := h.account p hp hid
    exact absurd (hname.trans ho) (h.named a ha)

theorem id_ne_zero (h : Forest nodes accounts next) {p : PermissionNode} (hp : p ∈ nodes)
    (ho : p.owner ≠ ⟨0⟩) : p.id ≠ 0 := by
  intro hid
  have := h.eq_of_id hp h.dummy hid
  exact ho (by rw [this]; rfl)

theorem addAccount (h : Forest nodes accounts next) {a : AccountObject} (ha : a.name ≠ ⟨0⟩) :
    Forest nodes (accounts ++ [a]) next := by
  refine ⟨h.ids, h.lt_next, h.dummy, ?_, ?_, h.root, h.parent, h.active, h.unique⟩
  · intro b hb
    rcases List.mem_append.1 hb with hb | hb
    · exact h.named b hb
    · rw [List.mem_singleton.1 hb]; exact ha
  · intro p hp hid
    obtain ⟨b, hb, hname⟩ := h.account p hp hid
    exact ⟨b, List.mem_append_left _ hb, hname⟩

/-- A name that is no account owns no permission. -/
theorem no_owner (h : Forest nodes accounts next) {n : Name} (hn : n ≠ ⟨0⟩)
    (hfresh : ∀ a ∈ accounts, a.name ≠ n) : ∀ q ∈ nodes, q.owner ≠ n := by
  intro q hq hown
  by_cases hid : q.id = 0
  · rw [h.eq_of_id hq h.dummy hid] at hown
    exact hn hown.symm
  · obtain ⟨a, ha, hname⟩ := h.account q hq hid
    exact hfresh a ha (hname.trans hown)

/-- A new leaf with the next id, under a permission of its own account (or a root exactly when
it is `owner`), with a name its account does not use yet. -/
theorem create (h : Forest nodes accounts next) {p : PermissionNode} (hid : p.id = next)
    (hacc : ∃ a ∈ accounts, a.name = p.owner) (hroot : p.parent = 0 ↔ p.name = Config.ownerName)
    (hpar : p.parent ≠ 0 → ∃ q ∈ nodes, q.id = p.parent ∧ q.owner = p.owner)
    (hact : p.name = Config.activeName →
      ∃ q ∈ nodes, q.id = p.parent ∧ q.owner = p.owner ∧ q.name = Config.ownerName)
    (hfresh : ∀ q ∈ nodes, q.owner = p.owner → q.name ≠ p.name) :
    Forest (nodes ++ [p]) accounts (next + 1) := by
  have hnew : ∀ q ∈ nodes, q.id ≠ p.id := fun q hq he => by
    have := h.lt_next q hq
    omega
  have hp0 : p.id ≠ 0 := by
    have := h.next_pos
    omega
  refine ⟨?_, ?_, List.mem_append_left _ h.dummy, h.named, ?_, ?_, ?_, ?_, ?_⟩
  · -- the new id is not among the old ones
    rw [List.map_append, List.nodup_append]
    refine ⟨h.ids, List.nodup_singleton _, ?_⟩
    simp only [List.map_cons, List.map_nil, List.mem_singleton, List.mem_map]
    rintro _ ⟨q, hq, rfl⟩ _ rfl
    exact hnew q hq
  · intro q hq
    rcases List.mem_append.1 hq with hq | hq
    · have := h.lt_next q hq
      omega
    · rw [List.mem_singleton.1 hq]
      omega
  · intro q hq hq0
    rcases List.mem_append.1 hq with hq | hq
    · exact h.account q hq hq0
    · rw [List.mem_singleton.1 hq]; exact hacc
  · intro q hq hq0
    rcases List.mem_append.1 hq with hq | hq
    · exact h.root q hq hq0
    · rw [List.mem_singleton.1 hq]; exact hroot
  · intro q hq hq0 hqp
    rcases List.mem_append.1 hq with hq | hq
    · obtain ⟨r, hr, h₁, h₂, h₃⟩ := h.parent q hq hq0 hqp
      exact ⟨r, List.mem_append_left _ hr, h₁, h₂, h₃⟩
    · rw [List.mem_singleton.1 hq] at hqp ⊢
      obtain ⟨r, hr, h₁, h₂⟩ := hpar hqp
      have := h.lt_next r hr
      exact ⟨r, List.mem_append_left _ hr, h₁, h₂, by omega⟩
  · intro q hq hq0 hqa
    rcases List.mem_append.1 hq with hq | hq
    · obtain ⟨r, hr, h₁, h₂, h₃⟩ := h.active q hq hq0 hqa
      exact ⟨r, List.mem_append_left _ hr, h₁, h₂, h₃⟩
    · rw [List.mem_singleton.1 hq] at hqa ⊢
      obtain ⟨r, hr, h₁, h₂, h₃⟩ := hact hqa
      exact ⟨r, List.mem_append_left _ hr, h₁, h₂, h₃⟩
  · intro q hq r hr hown hname
    rcases List.mem_append.1 hq with hq | hq <;> rcases List.mem_append.1 hr with hr | hr
    · exact h.unique q hq r hr hown hname
    · rw [List.mem_singleton.1 hr] at hown hname
      exact absurd hname (hfresh q hq hown)
    · rw [List.mem_singleton.1 hq] at hown hname
      exact absurd hname.symm (hfresh r hr hown.symm)
    · rw [List.mem_singleton.1 hq, List.mem_singleton.1 hr]

/-- Removing a leaf other than the dummy. -/
theorem remove (h : Forest nodes accounts next) {p : PermissionNode} (hp0 : p.id ≠ 0)
    (hleaf : ∀ q ∈ nodes, q.parent ≠ p.id) :
    Forest (nodes.filter (·.id != p.id)) accounts next := by
  have hmem : ∀ {q}, q ∈ nodes.filter (·.id != p.id) ↔ q ∈ nodes ∧ q.id ≠ p.id := by
    simp
  refine ⟨?_, fun q hq => h.lt_next q (hmem.1 hq).1, hmem.2 ⟨h.dummy, Ne.symm hp0⟩, h.named,
    fun q hq => h.account q (hmem.1 hq).1, fun q hq => h.root q (hmem.1 hq).1, ?_, ?_,
    fun q hq r hr => h.unique q (hmem.1 hq).1 r (hmem.1 hr).1⟩
  · exact (List.filter_sublist.map _).nodup h.ids
  · -- the parent of a remaining permission is not the removed leaf
    intro q hq hq0 hqp
    obtain ⟨r, hr, h₁, h₂, h₃⟩ := h.parent q (hmem.1 hq).1 hq0 hqp
    refine ⟨r, hmem.2 ⟨hr, ?_⟩, h₁, h₂, h₃⟩
    rw [h₁]
    exact hleaf q (hmem.1 hq).1
  · intro q hq hq0 hqa
    obtain ⟨r, hr, h₁, h₂, h₃⟩ := h.active q (hmem.1 hq).1 hq0 hqa
    refine ⟨r, hmem.2 ⟨hr, ?_⟩, h₁, h₂, h₃⟩
    rw [h₁]
    exact hleaf q (hmem.1 hq).1

end Forest

namespace Roles

variable {nodes : List PermissionNode} {accounts : List AccountObject}

theorem append (h : Roles nodes accounts) (extra : List PermissionNode) :
    Roles (nodes ++ extra) accounts := by
  intro a ha
  obtain ⟨⟨p, hp, h₁, h₂⟩, ⟨q, hq, h₃, h₄⟩⟩ := h a ha
  exact ⟨⟨p, List.mem_append_left _ hp, h₁, h₂⟩, ⟨q, List.mem_append_left _ hq, h₃, h₄⟩⟩

/-- Removing a permission that is neither `owner` nor `active` keeps every account's two. -/
theorem remove {next : Nat} (h : Roles nodes accounts) (hf : Forest nodes accounts next)
    {p : PermissionNode} (hp : p ∈ nodes) (hown : p.name ≠ Config.ownerName)
    (hact : p.name ≠ Config.activeName) : Roles (nodes.filter (·.id != p.id)) accounts := by
  have keep : ∀ q ∈ nodes, q.name ≠ p.name → q ∈ nodes.filter (·.id != p.id) := by
    intro q hq hne
    refine List.mem_filter.2 ⟨hq, ?_⟩
    simp only [bne_iff_ne, ne_eq]
    intro hid
    exact hne (by rw [hf.eq_of_id hq hp hid])
  intro a ha
  obtain ⟨⟨q, hq, h₁, h₂⟩, ⟨r, hr, h₃, h₄⟩⟩ := h a ha
  exact ⟨⟨q, keep q hq (h₂ ▸ Ne.symm hown), h₁, h₂⟩, ⟨r, keep r hr (h₄ ▸ Ne.symm hact), h₃, h₄⟩⟩

end Roles

/-! ## The parent relation -/

/-- `x` is the parent of `y` in the index; the dummy is no one's parent. -/
def ParentOf (nodes : List PermissionNode) (x y : Nat) : Prop :=
  x ≠ 0 ∧ ∃ p ∈ nodes, p.id = y ∧ p.parent = x

namespace Forest

variable {nodes : List PermissionNode} {accounts : List AccountObject} {next : Nat}

theorem parentOf_iff (h : Forest nodes accounts next) {p : PermissionNode} (hp : p ∈ nodes)
    {x : Nat} : ParentOf nodes x p.id ↔ x ≠ 0 ∧ x = p.parent := by
  constructor
  · rintro ⟨hx, q, hq, hid, rfl⟩
    exact ⟨hx, by rw [h.eq_of_id hq hp hid]⟩
  · rintro ⟨hx, rfl⟩
    exact ⟨hx, p, hp, rfl, rfl⟩

/-- A parent is an older permission of the same account. -/
theorem parentOf_owner (h : Forest nodes accounts next) {x y : Nat} (hxy : ParentOf nodes x y) :
    ∃ p ∈ nodes, ∃ q ∈ nodes, p.id = x ∧ q.id = y ∧ p.owner = q.owner ∧ x < y := by
  obtain ⟨hx, q, hq, rfl, rfl⟩ := hxy
  have hq0 : q.id ≠ 0 := fun h0 => hx (by rw [h.eq_of_id hq h.dummy h0]; rfl)
  obtain ⟨p, hp, hid, hown, hlt⟩ := h.parent q hq hq0 hx
  exact ⟨p, hp, q, hq, hid, rfl, hown, hid ▸ hlt⟩

theorem parentOf_lt (h : Forest nodes accounts next) {x y : Nat} (hxy : ParentOf nodes x y) :
    x < y := by
  obtain ⟨-, -, -, -, -, -, -, hlt⟩ := h.parentOf_owner hxy
  exact hlt

theorem transGen_lt (h : Forest nodes accounts next) {x y : Nat}
    (hxy : Relation.TransGen (ParentOf nodes) x y) : x < y := by
  induction hxy with
  | single hxy => exact h.parentOf_lt hxy
  | tail _ hyz ih => exact lt_trans ih (h.parentOf_lt hyz)

/-- The parent relation has no cycle: ids fall along it. -/
theorem acyclic (h : Forest nodes accounts next) (x : Nat) :
    ¬ Relation.TransGen (ParentOf nodes) x x :=
  fun hx => lt_irrefl x (h.transGen_lt hx)

/-- An ancestor belongs to the same account. -/
theorem transGen_owner (h : Forest nodes accounts next) {x y : Nat}
    (hxy : Relation.TransGen (ParentOf nodes) x y) {p q : PermissionNode} (hp : p ∈ nodes)
    (hq : q ∈ nodes) (hpx : p.id = x) (hqy : q.id = y) : p.owner = q.owner := by
  induction hxy generalizing q with
  | single hxy =>
    obtain ⟨p', hp', q', hq', h₁, h₂, hown, -⟩ := h.parentOf_owner hxy
    rw [h.eq_of_id hp hp' (hpx.trans h₁.symm), h.eq_of_id hq hq' (hqy.trans h₂.symm)]
    exact hown
  | tail _ hbc ih =>
    obtain ⟨m, hm, q', hq', h₁, h₂, hown, -⟩ := h.parentOf_owner hbc
    rw [ih hm h₁, h.eq_of_id hq hq' (hqy.trans h₂.symm)]
    exact hown

/-- The last step of a path to `p` is the step from its parent. -/
theorem transGen_iff (h : Forest nodes accounts next) {p : PermissionNode} (hp : p ∈ nodes)
    {x : Nat} :
    Relation.TransGen (ParentOf nodes) x p.id ↔
      p.parent ≠ 0 ∧ (x = p.parent ∨ Relation.TransGen (ParentOf nodes) x p.parent) := by
  rw [Relation.TransGen.tail'_iff]
  constructor
  · rintro ⟨c, hxc, hc⟩
    obtain ⟨hc0, rfl⟩ := (h.parentOf_iff hp).1 hc
    rcases Relation.reflTransGen_iff_eq_or_transGen.1 hxc with rfl | hxc
    · exact ⟨hc0, .inl rfl⟩
    · exact ⟨hc0, .inr hxc⟩
  · rintro ⟨hp0, hx⟩
    refine ⟨p.parent, ?_, (h.parentOf_iff hp).2 ⟨hp0, rfl⟩⟩
    rcases hx with rfl | hx
    · exact .refl
    · exact hx.to_reflTransGen

/-- Every permission but the dummy lies under the `owner` root of its account. -/
theorem exists_root (h : Forest nodes accounts next) :
    ∀ (n : Nat) (p : PermissionNode), p ∈ nodes → p.id = n → p.id ≠ 0 →
      ∃ r ∈ nodes, r.owner = p.owner ∧ r.name = Config.ownerName ∧ r.parent = 0 ∧
        Relation.ReflTransGen (ParentOf nodes) r.id p.id := by
  intro n
  induction n using Nat.strong_induction_on with
  | _ n ih =>
    intro p hp hpn hp0
    by_cases hpar : p.parent = 0
    · -- a root: the `owner` permission itself
      exact ⟨p, hp, rfl, (h.root p hp hp0).1 hpar, hpar, .refl⟩
    · obtain ⟨q, hq, hid, hown, hlt⟩ := h.parent p hp hp0 hpar
      have hq0 : q.id ≠ 0 := hid ▸ hpar
      obtain ⟨r, hr, hrown, hrname, hrpar, hrq⟩ := ih q.id (hpn ▸ hlt) q hq rfl hq0
      refine ⟨r, hr, hrown.trans hown, hrname, hrpar, hrq.tail ?_⟩
      exact (h.parentOf_iff hp).2 ⟨hq0, hid⟩

end Forest

end Native

end Safeos
