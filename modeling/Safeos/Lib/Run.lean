import Mathlib.Tactic.TypeStar
import Mathlib.Logic.Relation

/-!
# Runs of a partial step function

A system whose operations either complete or fail as a whole is a step function
`step : σ → α → Except ε σ`. Two readings of a sequence of operations are used:

* `run`: every operation is attempted, and a failed one leaves the state as it was (a
  transaction that aborts is rolled back, and the next one starts from the same state);
* `runAll`: the operations are chained, and the first failure is the result (a chain of
  blocks, each built on the state the previous one produced).

The invariant rules (`Preserves.run`, `Preserves.runAll`, and `PreservesUnder.run` for runs
whose steps meet a guard) turn a one-step preservation lemma
into a statement over every run.
-/

namespace Except

universe u v

variable {ε : Type u} {α β : Type v}

/-- Peeling a bind: a chain completed only if its first computation did. -/
@[simp] theorem bind_eq_ok {x : Except ε α} {f : α → Except ε β} {b : β} :
    x >>= f = .ok b ↔ ∃ a, x = .ok a ∧ f a = .ok b := by
  cases x <;> simp [bind, Except.bind]

@[simp] theorem map_eq_ok {x : Except ε α} {f : α → β} {b : β} :
    f <$> x = .ok b ↔ ∃ a, x = .ok a ∧ f a = b := by
  cases x <;> simp [Functor.map, Except.map]

@[simp] theorem pure_eq_ok {a b : α} : (pure a : Except ε α) = .ok b ↔ a = b := by
  simp [pure, Except.pure]

/-- A chain whose first computation completed goes on with its value. -/
theorem ok_bind {a : α} {f : α → Except ε β} : (Except.ok a >>= f) = f a := rfl

/-- Peeling a bind that failed: the first computation failed, or the rest did. -/
theorem bind_eq_error {x : Except ε α} {f : α → Except ε β} {e : ε} :
    x >>= f = .error e ↔ x = .error e ∨ ∃ a, x = .ok a ∧ f a = .error e := by
  cases x <;> simp [bind, Except.bind]

@[simp] theorem pure_ne_error {a : α} {e : ε} : (pure a : Except ε α) ≠ .error e := by
  simp [pure, Except.pure]

@[simp] theorem throw_ne_ok {e : ε} {b : α} : (throw e : Except ε α) ≠ .ok b := by
  simp [throw, throwThe, MonadExceptOf.throw]

/-- The short-circuit `&&` of two checked conditions: the second runs only after a `true`. -/
@[simp] theorem andM_eq_ok {x y : Except ε Bool} {b : Bool} :
    (x <&&> y) = .ok b ↔ (x = .ok true ∧ y = .ok b) ∨ (x = .ok false ∧ b = false) := by
  rcases x with e | (_ | _) <;> simp [andM, toBool, bind, Except.bind, pure, Except.pure, eq_comm]

/-- The short-circuit `||`: the second condition runs only after a `false`. -/
@[simp] theorem orM_eq_ok {x y : Except ε Bool} {b : Bool} :
    (x <||> y) = .ok b ↔ (x = .ok true ∧ b = true) ∨ (x = .ok false ∧ y = .ok b) := by
  rcases x with e | (_ | _) <;> simp [orM, toBool, bind, Except.bind, pure, Except.pure, eq_comm]

/-- Every error `x` can fail with satisfies `p`. -/
def ErrorsIn (p : ε → Prop) (x : Except ε α) : Prop := ∀ e, x = .error e → p e

theorem errorsIn_pure {p : ε → Prop} (a : α) : ErrorsIn p (pure a : Except ε α) :=
  fun _ h => absurd h pure_ne_error

theorem errorsIn_of_eq_ok {p : ε → Prop} {x : Except ε α} {a : α} (h : x = .ok a) :
    ErrorsIn p x := by
  intro e he
  rw [h] at he
  cases he

/-- The errors of a chain are those of its first computation, and of the rest after each way
the first can complete. -/
theorem ErrorsIn.bind {p : ε → Prop} {x : Except ε α} {f : α → Except ε β} (hx : ErrorsIn p x)
    (hf : ∀ a, x = .ok a → ErrorsIn p (f a)) : ErrorsIn p (x >>= f) := by
  intro e h
  rcases bind_eq_error.1 h with hx' | ⟨a, ha, hfa⟩
  · exact hx e hx'
  · exact hf a ha e hfa

theorem ErrorsIn.mono {p q : ε → Prop} {x : Except ε α} (h : ErrorsIn p x)
    (hpq : ∀ e, p e → q e) : ErrorsIn q x :=
  fun e he => hpq e (h e he)

theorem errorsIn_throw {p : ε → Prop} {e : ε} (h : p e) : ErrorsIn p (throw e : Except ε α) := by
  intro e' he'
  cases he'
  exact h

end Except

namespace List

variable {ε σ α : Type*} {f : σ → α → Except ε σ} {P : σ → List α → Prop}

/-! A loop over a list whose body may throw is `List.foldlM` in `Except`. Its invariants relate
the state to the part of the list still to run. -/

/-- Loop rule: an invariant kept by every pass that completes holds when the loop completes. -/
theorem foldlM_except_inv (h : ∀ s a as s', P s (a :: as) → f s a = .ok s' → P s' as) :
    ∀ {l : List α} {s t : σ}, P s l → l.foldlM f s = .ok t → P t []
  | [], s, t, hs, ht => by
    simp only [List.foldlM_nil, Except.pure_eq_ok] at ht
    exact ht ▸ hs
  | a :: as, s, t, hs, ht => by
    rw [List.foldlM_cons, Except.bind_eq_ok] at ht
    obtain ⟨s', h1, h2⟩ := ht
    exact foldlM_except_inv h (h s a as s' hs h1) h2

/-- A loop that throws threw in a pass that started from a state of the invariant. -/
theorem foldlM_except_error (h : ∀ s a as s', P s (a :: as) → f s a = .ok s' → P s' as) :
    ∀ {l : List α} {s : σ} {e : ε}, P s l → l.foldlM f s = .error e →
      ∃ s' a as, P s' (a :: as) ∧ f s' a = .error e
  | [], s, e, _, he => by simp [pure, Except.pure] at he
  | a :: as, s, e, hs, he => by
    rw [List.foldlM_cons] at he
    cases h1 : f s a with
    | error e' =>
      rw [h1] at he
      cases he
      exact ⟨s, a, as, hs, h1⟩
    | ok s' =>
      rw [h1] at he
      exact foldlM_except_error h (h s a as s' hs h1) he

/-- A loop completes if every pass from a state of the invariant completes and keeps it. -/
theorem foldlM_except_ok (h : ∀ s a as, P s (a :: as) → ∃ s', f s a = .ok s' ∧ P s' as) :
    ∀ {l : List α} {s : σ}, P s l → ∃ t, l.foldlM f s = .ok t ∧ P t []
  | [], s, hs => ⟨s, rfl, hs⟩
  | a :: as, s, hs => by
    obtain ⟨s', h1, h2⟩ := h s a as hs
    obtain ⟨t, ht, hP⟩ := foldlM_except_ok h h2
    exact ⟨t, by rw [List.foldlM_cons, h1]; exact ht, hP⟩

/-- The errors of a loop are errors of its passes. -/
theorem foldlM_errorsIn {p : ε → Prop} (h : ∀ s a, Except.ErrorsIn p (f s a)) {l : List α} {s : σ} :
    Except.ErrorsIn p (l.foldlM f s) := by
  intro e he
  obtain ⟨s', a, -, -, hstep⟩ :=
    foldlM_except_error (P := fun _ _ => True) (fun _ _ _ _ _ _ => trivial) trivial he
  exact h s' a e hstep

/-- A loop that completed ran its body on each element, and that pass completed. -/
theorem foldlM_except_pass {l : List α} {s t : σ} (h : l.foldlM f s = .ok t) {a : α}
    (ha : a ∈ l) : ∃ s' s'', f s' a = .ok s'' := by
  induction l generalizing s with
  | nil => cases ha
  | cons b bs ih =>
    rw [List.foldlM_cons, Except.bind_eq_ok] at h
    obtain ⟨s₁, h₁, h₂⟩ := h
    rcases List.mem_cons.1 ha with rfl | ha
    · exact ⟨s, s₁, h₁⟩
    · exact ih h₂ ha

/-- A loop whose every pass is a chain of `r`-steps is one. -/
theorem foldlM_except_reflTransGen {r : σ → σ → Prop}
    (hf : ∀ s a s', f s a = .ok s' → Relation.ReflTransGen r s s') {l : List α} {s t : σ}
    (h : l.foldlM f s = .ok t) : Relation.ReflTransGen r s t :=
  foldlM_except_inv (P := fun s' _ => Relation.ReflTransGen r s s')
    (fun _ a _ s' hs hstep => hs.trans (hf _ a s' hstep)) .refl h

end List

/-- An `Except` step run in `EStateM`: its error keeps the state. -/
theorem EStateM.run_ofExcept {ε σ α : Type} (x : Except ε α) (s : σ) :
    (MonadExcept.ofExcept x : EStateM ε σ α).run s =
      match x with
      | .ok v => .ok v s
      | .error e => .error e s := by
  cases x <;> rfl

namespace EStateM

variable {ε σ α β : Type}

/-! The run lemmas of `EStateM` are definitional, and `simp` applies such lemmas by unfolding: the
kernel is then left to check the whole program unfolded against the result in one step. Stated
as equations, they are rewrites that the kernel checks one at a time. -/

theorem run_bind_eq (x : EStateM ε σ α) (f : α → EStateM ε σ β) (s : σ) :
    (x >>= f).run s = (match x.run s with
      | .ok a s => (f a).run s
      | .error e s => .error e s) :=
  run_bind x f

theorem run_get_eq (s : σ) : (get : EStateM ε σ σ).run s = .ok s s := run_get s

theorem run_modify_eq (f : σ → σ) (s : σ) : (modify f : EStateM ε σ PUnit).run s = .ok ⟨⟩ (f s) :=
  run_modify f s

theorem run_pure_eq (a : α) (s : σ) : (pure a : EStateM ε σ α).run s = .ok a s := run_pure a s

end EStateM

namespace Transition

variable {σ α ε : Type*}

/-- Attempt one operation; a failure leaves the state unchanged. -/
def commit (step : σ → α → Except ε σ) (s : σ) (a : α) : σ :=
  match step s a with
  | .ok s' => s'
  | .error _ => s

/-- Attempt the operations in order, each from the state the previous one left. -/
def run (step : σ → α → Except ε σ) (s : σ) (as : List α) : σ :=
  as.foldl (commit step) s

/-- Chain the operations; the first failure is the result. -/
def runAll (step : σ → α → Except ε σ) : σ → List α → Except ε σ
  | s, [] => .ok s
  | s, a :: as => step s a >>= fun s' => runAll step s' as

variable {step : σ → α → Except ε σ}

@[simp] theorem run_nil (s : σ) : run step s [] = s := rfl

@[simp] theorem run_cons (s : σ) (a : α) (as : List α) :
    run step s (a :: as) = run step (commit step s a) as := rfl

theorem run_append (s : σ) (as bs : List α) :
    run step s (as ++ bs) = run step (run step s as) bs := by
  simp [run, List.foldl_append]

theorem commit_of_ok {s s' : σ} {a : α} (h : step s a = .ok s') : commit step s a = s' := by
  simp [commit, h]

/-- `commit` either took the step or left the state alone. -/
theorem commit_cases (step : σ → α → Except ε σ) (s : σ) (a : α) :
    step s a = .ok (commit step s a) ∨ commit step s a = s := by
  unfold commit
  split <;> simp_all

@[simp] theorem runAll_nil (s : σ) : runAll step s [] = .ok s := rfl

theorem runAll_cons {s t : σ} {a : α} {as : List α} :
    runAll step s (a :: as) = .ok t ↔ ∃ s', step s a = .ok s' ∧ runAll step s' as = .ok t := by
  simp only [runAll]
  cases step s a <;> simp [bind, Except.bind]

section Invariant

variable (I : σ → Prop)

/-- `I` is kept by every step that completes. -/
def Preserves (step : σ → α → Except ε σ) : Prop :=
  ∀ s a s', I s → step s a = .ok s' → I s'

variable {I}

theorem Preserves.commit (h : Preserves I step) {s : σ} (hs : I s) (a : α) :
    I (commit step s a) := by
  rcases commit_cases step s a with hok | heq
  · exact h s a _ hs hok
  · rw [heq]; exact hs

/-- Run rule: an invariant kept by every completed step holds after any run. -/
theorem Preserves.run (h : Preserves I step) {s : σ} (hs : I s) (as : List α) :
    I (run step s as) := by
  induction as generalizing s with
  | nil => exact hs
  | cons a as ih => exact ih (h.commit hs a)

/-- Chain rule: an invariant kept by every completed step holds at the end of every chain. -/
theorem Preserves.runAll (h : Preserves I step) {s t : σ} (hs : I s) {as : List α}
    (hrun : runAll step s as = .ok t) : I t := by
  induction as generalizing s with
  | nil => simp only [runAll_nil, Except.ok.injEq] at hrun; exact hrun ▸ hs
  | cons a as ih =>
    obtain ⟨s', h1, h2⟩ := runAll_cons.1 hrun
    exact ih (h s a s' hs h1) h2

end Invariant

/-! ### Guarded runs

Some properties are kept only by the steps that meet a condition `G` on the state they start
from and the operation; they hold over the runs whose every step meets it. -/

section Guarded

variable (G : σ → α → Prop)

/-- Every step of the run of `as` from `s` meets `G` in the state it starts from. -/
def Guarded (step : σ → α → Except ε σ) : σ → List α → Prop
  | _, [] => True
  | s, a :: as => G s a ∧ Guarded step (commit step s a) as

variable (I : σ → Prop)

/-- `I` is kept by every completed step that meets `G`. -/
def PreservesUnder (step : σ → α → Except ε σ) : Prop :=
  ∀ s a s', G s a → I s → step s a = .ok s' → I s'

variable {G I}

/-- A guard on the operations alone holds of a run when it holds of each operation. -/
theorem guarded_of_forall {P : α → Prop} {s : σ} {as : List α} (h : ∀ a ∈ as, P a) :
    Guarded (fun _ a => P a) step s as := by
  induction as generalizing s with
  | nil => trivial
  | cons a as ih =>
    exact ⟨h a List.mem_cons_self, ih fun b hb => h b (List.mem_cons_of_mem a hb)⟩

/-- Guarded run rule: an invariant kept by every completed step that meets `G` holds after
any run whose steps all meet it. -/
theorem PreservesUnder.run (h : PreservesUnder G I step) {s : σ} (hs : I s) {as : List α}
    (hg : Guarded G step s as) : I (run step s as) := by
  induction as generalizing s with
  | nil => exact hs
  | cons a as ih =>
    obtain ⟨ha, hg⟩ := hg
    refine ih ?_ hg
    rcases commit_cases step s a with hok | heq
    · exact h s a _ ha hs hok
    · rw [heq]; exact hs

/-- Guarded chain rule, for a guard on the operations alone. -/
theorem PreservesUnder.runAll {P : α → Prop} (h : PreservesUnder (fun _ a => P a) I step)
    {s t : σ} (hs : I s) {as : List α} (hg : ∀ a ∈ as, P a) (hrun : runAll step s as = .ok t) :
    I t := by
  induction as generalizing s with
  | nil => simp only [runAll_nil, Except.ok.injEq] at hrun; exact hrun ▸ hs
  | cons a as ih =>
    obtain ⟨s', h1, h2⟩ := runAll_cons.1 hrun
    exact ih (h s a s' (hg a List.mem_cons_self) hs h1)
      (fun b hb => hg b (List.mem_cons_of_mem a hb)) h2

end Guarded

/-! ### Properties of the history

A property `J s H` of the state and of the operations `H` run to reach it, kept by every
completed step, holds at the end of every chain. -/

section History

variable {J : σ → List α → Prop}

/-- History rule. -/
theorem runAll_history (h : ∀ s H a s', J s H → step s a = .ok s' → J s' (H ++ [a]))
    {s t : σ} {H as : List α} (hs : J s H) (hrun : runAll step s as = .ok t) : J t (H ++ as) := by
  induction as generalizing s H with
  | nil =>
    simp only [runAll_nil, Except.ok.injEq] at hrun
    simpa [← hrun] using hs
  | cons a as ih =>
    obtain ⟨s', h1, h2⟩ := runAll_cons.1 hrun
    simpa using ih (h s H a s' hs h1) h2

end History

end Transition
