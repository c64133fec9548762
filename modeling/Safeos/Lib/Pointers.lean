import Mathlib.Logic.Relation
import Mathlib.Data.Finset.Card

/-!
# Chains of pointers

A partial map `next : α → Option α` gives each node at most one successor. `Acyclic next`: no
chain of pointers comes back to the node it started from. `EndsWithin next a n`: following
pointers from `a` meets a node that points nowhere within `n` nodes.

Two facts are used:

* `Acyclic.of_new_to_ends`: acyclicity is kept when every pointer of the new map is an old one
  or leads to a node that points nowhere in the new map; removing pointers, and adding one to a
  node that ends its chain, are both of that kind.
* `endsWithin_of_acyclic`: in an acyclic map whose pointers stay inside a finite set `S`, every
  chain from a node of `S` ends within `S.card` nodes, so a recursion along it with that much
  fuel never runs out.
-/

namespace Pointers

variable {α : Type*}

/-- `a` points to `b`. -/
def Points (next : α → Option α) (a b : α) : Prop := next a = some b

/-- No chain of pointers returns to its start. -/
def Acyclic (next : α → Option α) : Prop := ∀ a, ¬ Relation.TransGen (Points next) a a

/-- Nothing points anywhere. -/
theorem acyclic_none : Acyclic (fun _ : α => (none : Option α)) := by
  intro a ha
  obtain ⟨b, hab, -⟩ := Relation.TransGen.head'_iff.1 ha
  simp [Points] at hab

variable {next next' : α → Option α}

/-- When every new pointer is an old one or leads to a node that points nowhere, a chain
whose last node still points on took old pointers only. -/
theorem transGen_of_new_to_ends (h : ∀ a b, next' a = some b → next a = some b ∨ next' b = none)
    {a b : α} (hab : Relation.TransGen (Points next') a b) (hb : (next' b).isSome) :
    Relation.TransGen (Points next) a b := by
  -- a pointer into a node that points on is old
  have hold : ∀ {c d}, Points next' c d → (next' d).isSome → Points next c d := fun hcd hd =>
    (h _ _ hcd).resolve_right fun hnone => by simp [hnone] at hd
  induction hab with
  | single hcb => exact .single (hold hcb hb)
  | @tail c d _ hcd ih =>
    have hc : (next' c).isSome := by
      rw [Points] at hcd
      rw [hcd]
      rfl
    exact .tail (ih hc) (hold hcd hb)

/-- Acyclicity is kept when every new pointer is an old one or leads to a node that points
nowhere. -/
theorem Acyclic.of_new_to_ends (hacyc : Acyclic next)
    (h : ∀ a b, next' a = some b → next a = some b ∨ next' b = none) : Acyclic next' := by
  intro a ha
  -- the cycle leaves `a`, so `a` points on and the whole cycle is old
  obtain ⟨b, hab, -⟩ := Relation.TransGen.head'_iff.1 ha
  have hsome : (next' a).isSome := by
    rw [Points] at hab
    rw [hab]
    rfl
  exact hacyc a (transGen_of_new_to_ends h ha hsome)

/-! ### Chains end -/

/-- Following pointers from `a` reaches a node that points nowhere within `n` nodes. -/
inductive EndsWithin (next : α → Option α) : α → ℕ → Prop
  | stop {a : α} {n : ℕ} : next a = none → EndsWithin next a (n + 1)
  | step {a b : α} {n : ℕ} : next a = some b → EndsWithin next b n → EndsWithin next a (n + 1)

theorem EndsWithin.mono {a : α} {n m : ℕ} (h : EndsWithin next a n) (hnm : n ≤ m) :
    EndsWithin next a m := by
  induction h generalizing m with
  | stop hnone =>
    obtain ⟨m, rfl⟩ : ∃ m', m = m' + 1 := ⟨m - 1, by omega⟩
    exact .stop hnone
  | step hab _ ih =>
    obtain ⟨m, rfl⟩ : ∃ m', m = m' + 1 := ⟨m - 1, by omega⟩
    exact .step hab (ih (by omega))

/-- Two maps that agree have the same chains. -/
theorem EndsWithin.congr {a : α} {n : ℕ} (h : EndsWithin next a n) (heq : next' = next) :
    EndsWithin next' a n :=
  heq ▸ h

open Classical in
/-- In an acyclic map whose pointers stay in the finite set `S`, the chain from a node of `S`
ends within `S.card` nodes. The count is on the nodes the chain still reaches: one step loses
the node it leaves, which no later node reaches. -/
theorem endsWithin_of_acyclic (hacyc : Acyclic next) (S : Finset α)
    (hS : ∀ a b, next a = some b → b ∈ S) {a : α} (ha : a ∈ S) : EndsWithin next a S.card := by
  let reach : α → Finset α := fun a => S.filter (Relation.ReflTransGen (Points next) a)
  have hself : ∀ {a}, a ∈ S → a ∈ reach a := fun ha =>
    Finset.mem_filter.2 ⟨ha, Relation.ReflTransGen.refl⟩
  -- the chain from `a` ends within the number of nodes it reaches
  have key : ∀ {a}, a ∈ S → EndsWithin next a (reach a).card := by
    intro a ha
    induction hn : (reach a).card using Nat.strong_induction_on generalizing a with
    | _ n ih =>
      have hpos : 0 < n := hn ▸ Finset.card_pos.2 ⟨a, hself ha⟩
      obtain ⟨n, rfl⟩ : ∃ n', n = n' + 1 := ⟨n - 1, by omega⟩
      cases hnext : next a with
      | none => exact .stop hnext
      | some b =>
        have hb : b ∈ S := hS a b hnext
        have hab : Points next a b := hnext
        -- `b` reaches less: what it reaches `a` reaches, and `a` it does not reach
        have hsub : reach b ⊂ reach a := by
          refine Finset.ssubset_iff_subset_ne.2 ⟨fun x hx => ?_, fun heq => ?_⟩
          · obtain ⟨hxS, hbx⟩ := Finset.mem_filter.1 hx
            exact Finset.mem_filter.2 ⟨hxS, Relation.ReflTransGen.head hab hbx⟩
          · have hba : a ∈ reach b := heq ▸ hself ha
            exact hacyc a (Relation.TransGen.head' hab (Finset.mem_filter.1 hba).2)
        have hlt := Finset.card_lt_card hsub
        exact .step hnext ((ih _ (by omega) hb rfl).mono (by omega))
  exact (key ha).mono (Finset.card_le_card (Finset.filter_subset _ S))

end Pointers
