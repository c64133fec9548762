import Mathlib.Data.List.Nodup
import Mathlib.Data.List.Sublists

/-!
# Nodes linked to their parents

A table of nodes, each with a key and the key of its parent; the children of a node are the
nodes whose parent is its key. `Descends key parent l k b`: following parents from `b` through
the nodes of `l` reaches the key `k`.

`eraseQueue` erases a node and what descends from it with a queue of keys: it erases the nodes of
the key at the front, and queues the keys of their children. With distinct keys and one more
round of fuel than there are nodes, it leaves exactly the nodes that neither have the key nor
descend from it, in their order (`eraseQueue_spec`).

`raiseLoop` raises, layer by layer, the nodes that descend from a key through nodes that all
need raising (`Reaches`); raising a node must leave it needing no more. With one more layer of
fuel than there are nodes, it raises exactly those nodes, in place (`raiseLoop_spec`).
-/

namespace ParentLinks

variable {α κ : Type*} (key parent : α → κ)

/-- `b` descends from the key `k` through the nodes of `l`. -/
inductive Descends (l : List α) (k : κ) : α → Prop
  | child {b : α} : b ∈ l → parent b = k → Descends l k b
  | step {b c : α} : b ∈ l → c ∈ l → parent b = key c → Descends l k c → Descends l k b

variable {key parent} in
/-- A node that descends from `k` has `k` for its parent, or the key of a node of `l`. -/
theorem Descends.parent_cases {l : List α} {k : κ} {b : α} (h : Descends key parent l k b) :
    parent b = k ∨ ∃ c ∈ l, parent b = key c := by
  cases h with
  | child _ hp => exact .inl hp
  | step _ hc hp _ => exact .inr ⟨_, hc, hp⟩

variable {key parent} in
/-- Descent reads only keys and parents: a map that keeps them keeps it. -/
theorem Descends.of_map {f : α → α} (hkey : ∀ b, key (f b) = key b)
    (hparent : ∀ b, parent (f b) = parent b) {l : List α} {k : κ} {b' : α}
    (h : Descends key parent (l.map f) k b') : ∀ b ∈ l, f b = b' → Descends key parent l k b := by
  induction h with
  | child _ hp =>
    rintro b hb rfl
    exact .child hb (hparent b ▸ hp)
  | step _ hc hp _ ih =>
    rintro b hb rfl
    obtain ⟨c, hc', rfl⟩ := List.mem_map.1 hc
    exact .step hb hc' (by rw [← hparent, hp, hkey]) (ih c hc' rfl)

section Reach

variable (needs : α → Bool)

/-- `b` is joined to the key `k` by a chain of nodes of `l` that all need raising. -/
inductive Reaches (l : List α) (k : κ) : α → Prop
  | child {b : α} : b ∈ l → needs b → parent b = k → Reaches l k b
  | step {b c : α} : b ∈ l → needs b → c ∈ l → parent b = key c → Reaches l k c → Reaches l k b

variable {key parent needs} in
theorem Reaches.needs_eq {l : List α} {k : κ} {b : α} (h : Reaches key parent needs l k b) :
    needs b = true := by
  cases h with
  | child _ hn _ => exact hn
  | step _ hn _ _ _ => exact hn

variable {key parent needs} in
theorem Reaches.descends {l : List α} {k : κ} {b : α} (h : Reaches key parent needs l k b) :
    Descends key parent l k b := by
  induction h with
  | child hb _ hp => exact .child hb hp
  | step hb _ hc hp _ ih => exact .step hb hc hp ih

end Reach

variable {key} in
theorem key_inj {L₀ : List α} (hkeys : (L₀.map key).Nodup) {b c : α} (hb : b ∈ L₀) (hc : c ∈ L₀)
    (h : key b = key c) : b = c :=
  List.inj_on_of_nodup_map hkeys hb hc h

variable {key} in
theorem nodup_map_key_of_sublist {L₀ l : List α} (hkeys : (L₀.map key).Nodup) (h : l.Sublist L₀) :
    (l.map key).Nodup :=
  hkeys.sublist (h.map key)

variable [DecidableEq κ]

/-- Erase the nodes of the key at the front of the queue, and queue the keys of their
children. -/
def eraseQueue : ℕ → List κ → List α → List α
  | 0, _, l => l
  | _, [], l => l
  | fuel + 1, k :: queue, l =>
    let l := l.filter fun b => key b != k
    eraseQueue fuel (queue ++ (l.filter fun b => parent b == k).map key) l

/-- The queue once the root's nodes are erased: the erased keys `E`, the queue `q` and the nodes
`l` left. -/
structure Erasing (L₀ : List α) (k₀ : κ) (E q : List κ) (l : List α) : Prop where
  rest : l = L₀.filter fun b => key b ∉ E
  root : k₀ ∈ E
  erased : ∀ e ∈ E, e = k₀ ∨ ∃ b ∈ L₀, key b = e ∧ Descends key parent L₀ k₀ b
  queued : ∀ e ∈ q, ∃ b ∈ l, key b = e ∧ parent b ∈ E
  children : ∀ b ∈ l, parent b ∈ E → key b ∈ q
  nodup : q.Nodup

variable {key parent}

section Erase

variable {L₀ : List α} {k₀ : κ} (hkeys : (L₀.map key).Nodup)
include hkeys

omit hkeys in
theorem Erasing.sublist {E q : List κ} {l : List α} (h : Erasing key parent L₀ k₀ E q l) :
    l.Sublist L₀ :=
  h.rest ▸ List.filter_sublist

/-- Erasing the root's nodes starts the queue with the keys of its children. -/
theorem erasing_start :
    let l := L₀.filter fun b => key b != k₀
    Erasing key parent L₀ k₀ [k₀] ((l.filter fun b => parent b == k₀).map key) l := by
  intro l
  have hl : l.Sublist L₀ := List.filter_sublist
  refine ⟨?_, List.mem_singleton_self k₀, ?_, ?_, ?_, ?_⟩
  · refine List.filter_congr fun b _ => ?_
    rw [Bool.eq_iff_iff]
    simp
  · intro e he
    exact .inl (List.mem_singleton.1 he)
  · intro e he
    obtain ⟨b, hb, rfl⟩ := List.mem_map.1 he
    rw [List.mem_filter, beq_iff_eq] at hb
    exact ⟨b, hb.1, rfl, List.mem_singleton.2 hb.2⟩
  · intro b hb hp
    exact List.mem_map_of_mem (List.mem_filter.2 ⟨hb, beq_iff_eq.2 (List.mem_singleton.1 hp)⟩)
  · exact nodup_map_key_of_sublist hkeys (List.filter_sublist.trans hl)

/-- One round: the front key `k` is erased, and the keys of its children are queued. -/
theorem Erasing.step {E q : List κ} {k : κ} {l : List α}
    (h : Erasing key parent L₀ k₀ E (k :: q) l) :
    let l' := l.filter fun b => key b != k
    Erasing key parent L₀ k₀ (k :: E) (q ++ (l'.filter fun b => parent b == k).map key) l' := by
  intro l'
  have hl : l.Sublist L₀ := h.sublist
  have hl' : l'.Sublist l := List.filter_sublist
  have hnd := List.nodup_cons.1 h.nodup
  obtain ⟨bk, hbk, hkey, hpar⟩ := h.queued k List.mem_cons_self
  have hkE : k ∉ E := by
    rw [h.rest, List.mem_filter, decide_eq_true_iff] at hbk
    exact hkey ▸ hbk.2
  refine ⟨?_, List.mem_cons_of_mem k h.root, ?_, ?_, ?_, ?_⟩
  · simp only [l', h.rest, List.filter_filter]
    refine List.filter_congr fun b _ => ?_
    rw [Bool.eq_iff_iff]
    simp
  · intro e he
    rcases List.mem_cons.1 he with rfl | he
    · refine .inr ⟨bk, hl.subset hbk, hkey, ?_⟩
      rcases h.erased _ hpar with hp | ⟨c, hc, hck, hdc⟩
      · exact .child (hl.subset hbk) hp
      · exact .step (hl.subset hbk) hc hck.symm hdc
    · exact h.erased e he
  · intro e he
    rcases List.mem_append.1 he with he | he
    · obtain ⟨b, hb, rfl, hp⟩ := h.queued e (List.mem_cons_of_mem k he)
      have hbk : key b ≠ k := fun hk => hnd.1 (hk ▸ he)
      exact ⟨b, List.mem_filter.2 ⟨hb, bne_iff_ne.2 hbk⟩, rfl, List.mem_cons_of_mem k hp⟩
    · obtain ⟨b, hb, rfl⟩ := List.mem_map.1 he
      rw [List.mem_filter, beq_iff_eq] at hb
      exact ⟨b, hb.1, rfl, hb.2 ▸ List.mem_cons_self⟩
  · intro b hb hp
    rcases List.mem_cons.1 hp with hp | hp
    · exact List.mem_append_right q
        (List.mem_map_of_mem (List.mem_filter.2 ⟨hb, beq_iff_eq.2 hp⟩))
    · have hbk : key b ≠ k := bne_iff_ne.1 (List.mem_filter.1 hb).2
      rcases List.mem_cons.1 (h.children b (hl'.subset hb) hp) with hk | hq
      · exact absurd hk hbk
      · exact List.mem_append_left _ hq
  · refine List.nodup_append.2 ⟨hnd.2, nodup_map_key_of_sublist hkeys
      (List.filter_sublist.trans (hl'.trans hl)), ?_⟩
    intro e he e' he' hee'
    obtain ⟨c, hc, rfl⟩ := List.mem_map.1 he'
    rw [List.mem_filter, beq_iff_eq] at hc
    obtain ⟨b, hb, hbe, hp⟩ := h.queued e (List.mem_cons_of_mem k he)
    have hbc : b = c :=
      key_inj hkeys (hl.subset hb) (hl.subset (hl'.subset hc.1)) (hbe.trans hee')
    exact hkE (hc.2 ▸ hbc ▸ hp)

omit hkeys in
/-- A round erases a node: the front key is the key of one left. -/
theorem Erasing.length_lt {E q : List κ} {k : κ} {l : List α}
    (h : Erasing key parent L₀ k₀ E (k :: q) l) :
    (l.filter fun b => key b != k).length < l.length := by
  obtain ⟨b, hb, hkey, -⟩ := h.queued k List.mem_cons_self
  exact List.length_filter_lt_length_iff_exists.2 ⟨b, hb, by simp [hkey]⟩

/-- With the queue empty, the erased keys are the root and the keys of its descendants. -/
theorem Erasing.done {E : List κ} {l : List α} (h : Erasing key parent L₀ k₀ E [] l) {b : α}
    (hb : b ∈ L₀) : key b ∈ E ↔ key b = k₀ ∨ Descends key parent L₀ k₀ b := by
  -- a present node whose parent is erased would be queued
  have herased : ∀ {c}, c ∈ L₀ → parent c ∈ E → key c ∈ E := by
    intro c hc hp
    by_contra hcE
    have hcl : c ∈ l := by
      rw [h.rest, List.mem_filter, decide_eq_true_iff]
      exact ⟨hc, hcE⟩
    exact List.not_mem_nil (h.children c hcl hp)
  constructor
  · intro hE
    rcases h.erased _ hE with hk | ⟨c, hc, hck, hdc⟩
    · exact .inl hk
    · exact .inr (key_inj hkeys hc hb hck ▸ hdc)
  · rintro (hk | hd)
    · exact hk ▸ h.root
    · induction hd with
      | child hc hp => exact herased hc (hp ▸ h.root)
      | step hc hd hp _ ih => exact herased hc (hp ▸ ih hd)

/-- Loop rule: from any state of the queue, a round of fuel for each node left empties it. -/
theorem eraseQueue_of_erasing {fuel : ℕ} {E q : List κ} {l : List α}
    (h : Erasing key parent L₀ k₀ E q l) (hfuel : l.length ≤ fuel) :
    ∃ E', Erasing key parent L₀ k₀ E' [] (eraseQueue key parent fuel q l) := by
  induction fuel generalizing E q l with
  | zero =>
    -- no node is left, so nothing can be queued
    have hl : l = [] := List.eq_nil_of_length_eq_zero (Nat.le_zero.1 hfuel)
    cases q with
    | nil => exact ⟨E, h⟩
    | cons k q =>
      obtain ⟨b, hb, -⟩ := h.queued k List.mem_cons_self
      exact absurd (hl ▸ hb) List.not_mem_nil
  | succ fuel ih =>
    cases q with
    | nil => exact ⟨E, h⟩
    | cons k q =>
      have hlen := h.length_lt
      exact ih (h.step hkeys) (by omega)

variable (parent k₀) in
/-- `eraseQueue` from a root key leaves, in their order, exactly the nodes that neither have the
key nor descend from it. -/
theorem eraseQueue_spec {fuel : ℕ} (hfuel : L₀.length < fuel) :
    let l := eraseQueue key parent fuel [k₀] L₀
    l.Sublist L₀ ∧ ∀ b, b ∈ l ↔ b ∈ L₀ ∧ ¬(key b = k₀ ∨ Descends key parent L₀ k₀ b) := by
  obtain ⟨n, rfl⟩ : ∃ n, fuel = n + 1 := ⟨fuel - 1, by omega⟩
  have hstart : Erasing key parent L₀ k₀ [k₀] _ _ := erasing_start hkeys
  obtain ⟨E, h⟩ := eraseQueue_of_erasing hkeys hstart
    (show _ ≤ n from (List.length_filter_le _ _).trans (by omega))
  -- the first round erases the root's nodes and queues its children
  change Erasing key parent L₀ k₀ E [] (eraseQueue key parent (n + 1) [k₀] L₀) at h
  refine ⟨h.sublist, fun b => ?_⟩
  rw [h.rest, List.mem_filter, decide_eq_true_iff]
  constructor
  · rintro ⟨hb, hE⟩
    exact ⟨hb, (h.done hkeys hb).not.1 hE⟩
  · rintro ⟨hb, hE⟩
    exact ⟨hb, (h.done hkeys hb).not.2 hE⟩

end Erase

/-! ### Raising what descends from a key

`raiseLoop` is a breadth-first traversal, layer by layer: a layer visits its keys in turn, and
raises the children of each that need it; the keys of the nodes raised are the next layer. A node
that needs no raising stops the traversal below it. -/

section Raise

variable (key parent) (needs : α → Bool) (raise : α → α)

/-- A child of `k` that needs raising. -/
def raisable (k : κ) (b : α) : Bool := parent b == k && needs b

/-- Visit the key `k`: raise its children that need it, and collect their keys. -/
def raiseStep (acc : List α × List κ) (k : κ) : List α × List κ :=
  (acc.1.map (fun b => if raisable parent needs k b then raise b else b),
    acc.2 ++ (acc.1.filter (raisable parent needs k)).map key)

/-- One layer: visit its keys in turn. -/
def raiseLayer (layer : List κ) (l : List α) : List α × List κ :=
  layer.foldl (raiseStep key parent needs raise) (l, [])

/-- Layer after layer, until a layer raises nothing. -/
def raiseLoop : ℕ → List κ → List α → List α
  | 0, _, l => l
  | _, [], l => l
  | fuel + 1, k :: layer, l =>
    let (l, layer) := raiseLayer key parent needs raise (k :: layer) l
    raiseLoop fuel layer l

/-- The loop's state: the nodes `r` marks are raised in `l`, and only nodes that reach the root;
each queued key is the root or a raised node's; and a node that needs raising and is not raised
yet, whose parent is the root or raised, has its parent queued. -/
structure Raising (L₀ : List α) (k₀ : κ) (r : α → Bool) (q : List κ) (l : List α) : Prop where
  shape : l = L₀.map fun b => if r b then raise b else b
  sound : ∀ b ∈ L₀, r b → Reaches key parent needs L₀ k₀ b
  queued : ∀ e ∈ q, e = k₀ ∨ ∃ b ∈ L₀, r b ∧ key b = e
  closed : ∀ b ∈ L₀, needs b → r b = false →
    (parent b = k₀ ∨ ∃ c ∈ L₀, r c ∧ parent b = key c) → parent b ∈ q

/-- The nodes not raised yet that need it. -/
def pending (L₀ : List α) (r : α → Bool) : ℕ := L₀.countP fun b => needs b && !r b

variable {key parent needs raise}

section Step

variable (hneeds : ∀ b, needs (raise b) = false)

variable {L₀ : List α} {k₀ : κ}
include hneeds

/-- A raised node is raisable no more; the others are as they were. -/
theorem raisable_raised (r : α → Bool) (e : κ) (b : α) :
    raisable parent needs e (if r b then raise b else b) = (!r b && raisable parent needs e b) := by
  cases r b <;> simp [raisable, hneeds]

/-- Processing the key `e` raises the children of `e` that need it. -/
theorem Raising.visit {r : α → Bool} {e : κ} {q : List κ} {l : List α}
    (h : Raising key parent needs raise L₀ k₀ r (e :: q) l) :
    Raising key parent needs raise L₀ k₀ (fun b => r b || raisable parent needs e b)
        (q ++ (l.filter (raisable parent needs e)).map key)
        (l.map fun b => if raisable parent needs e b then raise b else b) ∧
      pending needs L₀ (fun b => r b || raisable parent needs e b) +
        (l.filter (raisable parent needs e)).length = pending needs L₀ r := by
  have hraised : ∀ b, raisable parent needs e (if r b then raise b else b) =
      (!r b && raisable parent needs e b) := raisable_raised hneeds r e
  -- the raisable nodes of `l` are the nodes of `L₀` not raised yet, unchanged
  have hnew : ∀ x, x ∈ (l.filter (raisable parent needs e)).map key ↔
      ∃ b ∈ L₀, r b = false ∧ raisable parent needs e b ∧ key b = x := by
    intro x
    simp only [h.shape, List.filter_map, List.map_map, List.mem_map, List.mem_filter,
      Function.comp, hraised, Bool.and_eq_true, Bool.not_eq_true']
    constructor
    · rintro ⟨b, ⟨hb, hr, hrb⟩, rfl⟩
      exact ⟨b, hb, hr, hrb, by simp [hr]⟩
    · rintro ⟨b, hb, hr, hrb, rfl⟩
      exact ⟨b, ⟨hb, hr, hrb⟩, by simp [hr]⟩
  refine ⟨⟨?_, ?_, ?_, ?_⟩, ?_⟩
  · rw [h.shape, List.map_map]
    refine List.map_congr_left fun b _ => ?_
    cases hr : r b <;> simp [hr, raisable, hneeds]
  · intro b hb hr
    rcases Bool.or_eq_true _ _ ▸ hr with hr | hr
    · exact h.sound b hb hr
    · simp only [raisable, Bool.and_eq_true, beq_iff_eq] at hr
      rcases h.queued e List.mem_cons_self with he | ⟨c, hc, hrc, hce⟩
      · exact .child hb hr.2 (hr.1.trans he)
      · exact .step hb hr.2 hc (hr.1.trans hce.symm) (h.sound c hc hrc)
  · intro x hx
    rcases List.mem_append.1 hx with hx | hx
    · rcases h.queued x (List.mem_cons_of_mem e hx) with hx | ⟨b, hb, hrb, hbx⟩
      · exact .inl hx
      · exact .inr ⟨b, hb, by simp [hrb], hbx⟩
    · obtain ⟨b, hb, -, hrb, hbx⟩ := (hnew x).1 hx
      exact .inr ⟨b, hb, by simp [hrb], hbx⟩
  · intro b hb hn hr hlink
    simp only [Bool.or_eq_false_iff] at hr
    have hpe : parent b ≠ e := fun hpe => by simp [raisable, hpe, hn] at hr
    -- a parent queued before stays queued unless it is `e`, which `b` does not hang from
    have hold : parent b ∈ e :: q → parent b ∈ q ++ (l.filter (raisable parent needs e)).map key :=
      fun hq => List.mem_append_left _ ((List.mem_cons.1 hq).resolve_left hpe)
    rcases hlink with hk | ⟨c, hc, hrc, hpc⟩
    · exact hold (h.closed b hb hn hr.1 (.inl hk))
    · cases hrc' : r c with
      | true => exact hold (h.closed b hb hn hr.1 (.inr ⟨c, hc, hrc', hpc⟩))
      | false =>
        -- `c` is raised by this visit, and its key is queued with the new ones
        have hce : raisable parent needs e c = true := by simpa [hrc'] using hrc
        exact List.mem_append_right q ((hnew _).2 ⟨c, hc, hrc', hce, hpc.symm⟩)
  · -- the raised nodes leave the pending ones, one for each key collected
    have hlen : (l.filter (raisable parent needs e)).length =
        L₀.countP fun b => !r b && raisable parent needs e b := by
      rw [← List.countP_eq_length_filter, h.shape, List.countP_map]
      exact List.countP_congr fun b _ => by simp only [Function.comp_apply, hraised]
    have hsplit := List.countP_eq_countP_filter_add L₀ (fun b => needs b && !r b)
      (raisable parent needs e)
    rw [List.countP_filter, List.countP_filter] at hsplit
    have hraise : (L₀.countP fun b => (needs b && !r b) && raisable parent needs e b) =
        L₀.countP fun b => !r b && raisable parent needs e b :=
      List.countP_congr fun b _ => by cases hn : needs b <;> simp [raisable, hn]
    have hstay : pending needs L₀ (fun b => r b || raisable parent needs e b) =
        L₀.countP fun b => (needs b && !r b) && !raisable parent needs e b :=
      List.countP_congr fun b _ => by simp [Bool.and_assoc]
    unfold pending at hstay ⊢
    omega

/-- A layer visits its keys in turn; the keys it collects follow those already queued. -/
theorem Raising.layer {layer updated : List κ} {r : α → Bool} {l : List α}
    (h : Raising key parent needs raise L₀ k₀ r (layer ++ updated) l) :
    let res := layer.foldl (raiseStep key parent needs raise) (l, updated)
    ∃ r', Raising key parent needs raise L₀ k₀ r' res.2 res.1 ∧
      pending needs L₀ r' + res.2.length = pending needs L₀ r + updated.length := by
  induction layer generalizing updated r l with
  | nil => exact ⟨r, h, rfl⟩
  | cons e layer ih =>
    rw [List.cons_append] at h
    obtain ⟨hvisit, hcount⟩ := h.visit hneeds
    rw [List.append_assoc] at hvisit
    obtain ⟨r', h', hcount'⟩ := ih hvisit
    refine ⟨r', h', ?_⟩
    rw [List.length_append, List.length_map] at hcount'
    simp only [List.foldl_cons, raiseStep]
    omega

/-- Loop rule: a round of fuel for each node still to raise, and one more, empties the queue. -/
theorem Raising.loop {fuel : ℕ} {q : List κ} {r : α → Bool} {l : List α}
    (h : Raising key parent needs raise L₀ k₀ r q l) (hfuel : q ≠ [] → pending needs L₀ r < fuel) :
    ∃ r', Raising key parent needs raise L₀ k₀ r' [] (raiseLoop key parent needs raise fuel q l) := by
  induction fuel generalizing q r l with
  | zero =>
    cases q with
    | nil => exact ⟨r, h⟩
    | cons k q => exact absurd (hfuel (List.cons_ne_nil k q)) (Nat.not_lt_zero _)
  | succ fuel ih =>
    cases q with
    | nil => exact ⟨r, h⟩
    | cons k q =>
      have h0 : Raising key parent needs raise L₀ k₀ r (k :: q ++ []) l := by rwa [List.append_nil]
      obtain ⟨r', h', hcount⟩ := h0.layer hneeds
      have hpos := hfuel (List.cons_ne_nil k q)
      refine ih h' fun hne => ?_
      have hlen := List.length_pos_iff.2 hne
      simp only [List.length_nil, Nat.add_zero, List.foldl_cons] at hcount
      omega

omit hneeds [DecidableEq κ] in
/-- With the queue empty, the raised nodes are exactly those that reach the root. -/
theorem Raising.done {r : α → Bool} {l : List α} (h : Raising key parent needs raise L₀ k₀ r [] l)
    {b : α} (hb : b ∈ L₀) : r b ↔ Reaches key parent needs L₀ k₀ b := by
  refine ⟨h.sound b hb, fun hr => ?_⟩
  induction hr with
  | child hb hn hp =>
    by_contra hrb
    exact List.not_mem_nil (h.closed _ hb hn (by simpa using hrb) (.inl hp))
  | step hb hn hc hp _ ih =>
    by_contra hrb
    exact List.not_mem_nil (h.closed _ hb hn (by simpa using hrb) (.inr ⟨_, hc, ih hc, hp⟩))

variable (key parent raise k₀) in
/-- `raiseLoop` from a root key raises, in place, exactly the nodes that reach it. -/
theorem raiseLoop_spec {fuel : ℕ} (hfuel : L₀.length < fuel) :
    ∃ r : α → Bool, (∀ b ∈ L₀, r b ↔ Reaches key parent needs L₀ k₀ b) ∧
      raiseLoop key parent needs raise fuel [k₀] L₀ = L₀.map fun b => if r b then raise b else b := by
  have hstart : Raising key parent needs raise L₀ k₀ (fun _ => false) [k₀] L₀ := by
    refine ⟨by simp, fun _ _ h => absurd h Bool.false_ne_true, ?_, ?_⟩
    · intro e he
      exact .inl (List.mem_singleton.1 he)
    · rintro b - - - (hk | ⟨c, -, hc, -⟩)
      · exact List.mem_singleton.2 hk
      · exact absurd hc Bool.false_ne_true
  have hpend : pending needs L₀ (fun _ => false) < fuel :=
    lt_of_le_of_lt List.countP_le_length hfuel
  obtain ⟨r, h⟩ := hstart.loop hneeds fun _ => hpend
  exact ⟨r, fun b hb => h.done hb, h.shape⟩

end Step

end Raise

end ParentLinks
