import Safeos.Chain.Dispatch
import Safeos.Lib.Run

/-!
# Dispatching: receipts, notifications and depth

Dispatching changes the world in two ways only (`Step`): a run of a receiver's code that
completed, followed by its receipt, and the scheduling of a delayed transaction. A transaction is
a chain of such steps (`exec_steps`), so what one step keeps holds of the whole transaction: the
receipts carry consecutive global sequences and, for each receiver, consecutive receive
sequences (`exec_receipt_sequences`).

Within one action, the runs before the inline actions are those of the accounts of `_notified`,
in order (`NotifyRuns`): the receiver first, no account twice, and every account a run asked to
notify among them (`dispatchAction_notifies`). A context-free action has one run, which calls
none of these intrinsics (`dispatchAction_contextFree`). And since an inline action runs one
level deeper, code that always sends one aborts its transaction (`always_inline_aborts`).
-/

namespace Safeos
namespace Dispatch

open ApplyContext

variable {σ : Type} {ch : Chain σ}

/-! ### Receipts -/

namespace World

variable (w : World σ) (s : σ) (receiver : Name) (act : Action)

@[simp] theorem finishRun_chain : (w.finishRun s receiver act).chain = s := rfl

@[simp] theorem finishRun_globalActionSequence :
    (w.finishRun s receiver act).globalActionSequence = w.globalActionSequence + 1 := rfl

@[simp] theorem finishRun_recvSequence :
    (w.finishRun s receiver act).recvSequence =
      Function.update w.recvSequence receiver (w.recvSequence receiver + 1) := rfl

@[simp] theorem finishRun_executed :
    (w.finishRun s receiver act).executed = w.executed ++ [w.nextReceipt receiver act] := rfl

@[simp] theorem nextReceipt_receiver : (w.nextReceipt receiver act).receiver = receiver := rfl

@[simp] theorem nextReceipt_act : (w.nextReceipt receiver act).act = act := rfl

@[simp] theorem nextReceipt_globalSequence :
    (w.nextReceipt receiver act).globalSequence = w.globalActionSequence + 1 := rfl

@[simp] theorem nextReceipt_recvSequence :
    (w.nextReceipt receiver act).recvSequence = w.recvSequence receiver + 1 := rfl

end World

/-! ### Handling the intrinsic calls of a run -/

namespace ApplyContext

/-- What handling intrinsic calls keeps of an `apply_context`: its action and its flag, and the
lists, which only grow at their ends. -/
structure Grows (ctx ctx' : ApplyContext) : Prop where
  act : ctx'.act = ctx.act
  contextFree : ctx'.contextFree = ctx.contextFree
  notified : ctx.notified <+: ctx'.notified
  inlineActions : ctx.inlineActions <+: ctx'.inlineActions

theorem Grows.refl (ctx : ApplyContext) : Grows ctx ctx :=
  ⟨rfl, rfl, List.prefix_refl _, List.prefix_refl _⟩

theorem Grows.trans {ctx₁ ctx₂ ctx₃ : ApplyContext} (h₁ : Grows ctx₁ ctx₂) (h₂ : Grows ctx₂ ctx₃) :
    Grows ctx₁ ctx₃ :=
  ⟨h₂.act.trans h₁.act, h₂.contextFree.trans h₁.contextFree, h₁.notified.trans h₂.notified,
    h₁.inlineActions.trans h₂.inlineActions⟩

theorem grows_requireRecipient (ctx : ApplyContext) (x : Name) :
    Grows ctx (ctx.requireRecipient x) := by
  unfold requireRecipient
  split
  · exact ⟨rfl, rfl, List.prefix_append _ _, List.prefix_refl _⟩
  · exact Grows.refl ctx

theorem mem_requireRecipient (ctx : ApplyContext) (x : Name) : x ∈ (ctx.requireRecipient x).notified := by
  unfold requireRecipient
  split
  · simp
  · rename_i h
    simpa [hasRecipient] using h

theorem executeInline_eq_ok {s : σ} {ctx ctx' : ApplyContext} {a : Action}
    (h : executeInline ch s ctx a = .ok ctx') :
    ctx' = { ctx with inlineActions := ctx.inlineActions ++ [a] } := by
  unfold executeInline at h
  simp only [Except.bind_eq_ok] at h
  obtain ⟨_, -, _, -, h⟩ := h
  split at h
  · obtain ⟨_, -, h⟩ := Except.bind_eq_ok.1 h
    exact (Except.pure_eq_ok.1 h).symm
  · exact (Except.pure_eq_ok.1 h).symm

theorem executeContextFreeInline_eq_ok {s : σ} {ctx ctx' : ApplyContext} {a : Action}
    (h : executeContextFreeInline ch s ctx a = .ok ctx') :
    ctx' = { ctx with cfaInlineActions := ctx.cfaInlineActions ++ [a] } := by
  unfold executeContextFreeInline at h
  simp only [Except.bind_eq_ok, Except.pure_eq_ok] at h
  obtain ⟨_, -, _, -, h⟩ := h
  exact h.symm

/-- A call is handled only outside a context-free action; it keeps what `Grows` keeps, and puts
the recipient it asks for, or the inline action it sends, in its list. -/
theorem handleCall_eq_ok {ctx ctx' : ApplyContext} {p : σ × Call}
    (h : handleCall ch ctx p = .ok ctx') :
    ctx.contextFree = false ∧ Grows ctx ctx' ∧
      (∀ x, p.2 = .requireRecipient x → x ∈ ctx'.notified) ∧
      (∀ a n, p.2 = .sendInline a n → a ∈ ctx'.inlineActions) := by
  obtain ⟨s, c⟩ := p
  cases c with
  | requireRecipient x =>
    simp only [handleCall, contextAwareApi, Except.bind_eq_ok, eosioAssert_eq_ok,
      Bool.not_eq_true', Except.pure_eq_ok] at h
    obtain ⟨_, hcf, rfl⟩ := h
    refine ⟨hcf, grows_requireRecipient ctx x, fun y hy => ?_, by simp⟩
    obtain rfl : x = y := by simpa using hy
    exact mem_requireRecipient ctx x
  | sendInline a n =>
    simp only [handleCall, contextAwareApi, Except.bind_eq_ok, eosioAssert_eq_ok,
      Bool.not_eq_true'] at h
    obtain ⟨_, hcf, _, -, h⟩ := h
    rw [executeInline_eq_ok h]
    exact ⟨hcf, ⟨rfl, rfl, List.prefix_refl _, List.prefix_append _ _⟩, by simp, by simp⟩
  | sendContextFreeInline a n =>
    simp only [handleCall, contextAwareApi, Except.bind_eq_ok, eosioAssert_eq_ok,
      Bool.not_eq_true'] at h
    obtain ⟨_, hcf, _, -, h⟩ := h
    rw [executeContextFreeInline_eq_ok h]
    exact ⟨hcf, ⟨rfl, rfl, List.prefix_refl _, List.prefix_refl _⟩, by simp, by simp⟩

end ApplyContext

/-- The accounts a run asked to notify. -/
def Run.recipients (r : Run σ) : List Name :=
  r.calls.filterMap fun p =>
    match p.2 with
    | .requireRecipient x => some x
    | _ => none

theorem Run.mem_recipients {r : Run σ} {x : Name} :
    x ∈ r.recipients ↔ ∃ s, (s, Call.requireRecipient x) ∈ r.calls := by
  simp only [recipients, List.mem_filterMap]
  constructor
  · rintro ⟨⟨s, c⟩, hp, hc⟩
    cases c with
    | requireRecipient y =>
      obtain rfl : y = x := by simpa using hc
      exact ⟨s, hp⟩
    | _ => simp at hc
  · rintro ⟨s, hs⟩
    exact ⟨_, hs, rfl⟩

/-- Handling a run's calls in turn: every recipient it asked for is notified, and every inline
action it sent is queued. -/
theorem foldlM_handleCall {calls : List (σ × Call)} {ctx ctx' : ApplyContext}
    (h : calls.foldlM (handleCall ch) ctx = .ok ctx') :
    Grows ctx ctx' ∧ (∀ x s, (s, Call.requireRecipient x) ∈ calls → x ∈ ctx'.notified) ∧
      (∀ a n s, (s, Call.sendInline a n) ∈ calls → a ∈ ctx'.inlineActions) := by
  induction calls generalizing ctx with
  | nil =>
    cases Except.pure_eq_ok.1 h
    exact ⟨Grows.refl _, by simp, by simp⟩
  | cons p ps ih =>
    rw [List.foldlM_cons, Except.bind_eq_ok] at h
    obtain ⟨ctx₁, h₁, h₂⟩ := h
    obtain ⟨-, g₁, hr₁, hi₁⟩ := handleCall_eq_ok h₁
    obtain ⟨g₂, hr₂, hi₂⟩ := ih h₂
    refine ⟨g₁.trans g₂, ?_, ?_⟩
    · intro x s hx
      rcases List.mem_cons.1 hx with hx | hx
      · exact g₂.notified.subset (hr₁ x (by rw [← hx]))
      · exact hr₂ x s hx
    · intro a n s ha
      rcases List.mem_cons.1 ha with ha | ha
      · exact g₂.inlineActions.subset (hi₁ a n (by rw [← ha]))
      · exact hi₂ a n s ha

/-- In a context-free action every intrinsic call aborts, so a run that completed made none. -/
theorem foldlM_handleCall_of_contextFree {calls : List (σ × Call)} {ctx ctx' : ApplyContext}
    (hcf : ctx.contextFree = true) (h : calls.foldlM (handleCall ch) ctx = .ok ctx') :
    calls = [] ∧ ctx' = ctx := by
  cases calls with
  | nil => exact ⟨rfl, (Except.pure_eq_ok.1 h).symm⟩
  | cons p ps =>
    rw [List.foldlM_cons, Except.bind_eq_ok] at h
    obtain ⟨ctx₁, h₁, -⟩ := h
    have := (handleCall_eq_ok h₁).1
    simp_all

/-! ### One run -/

/-- `exec_one` completed: the account was read, its run completed after its calls were handled,
and the world is the one after its receipt. -/
theorem execOne_eq_ok {w w' : World σ} {ctx ctx' : ApplyContext}
    (h : execOne ch w ctx = .ok (w', ctx')) :
    ∃ privileged s, ch.getAccount w.chain ctx.receiver = .ok privileged ∧
      (ch.run w.chain ctx.receiver ctx.act ctx.contextFree).calls.foldlM (handleCall ch)
        { ctx with privileged } = .ok ctx' ∧
      (ch.run w.chain ctx.receiver ctx.act ctx.contextFree).result = .ok s ∧
      w' = w.finishRun s ctx.receiver ctx.act := by
  simp only [execOne, Except.bind_eq_ok, Except.pure_eq_ok, Prod.mk.injEq] at h
  obtain ⟨privileged, hp, ctx₁, hcalls, s, hs, rfl, rfl⟩ := h
  exact ⟨privileged, s, hp, hcalls, hs, rfl⟩

theorem execOne_grows {w w' : World σ} {ctx ctx' : ApplyContext}
    (h : execOne ch w ctx = .ok (w', ctx')) : Grows ctx ctx' := by
  obtain ⟨_, _, -, hcalls, -, -⟩ := execOne_eq_ok h
  -- the account's flag is the only field the run's start changes
  have g := (foldlM_handleCall hcalls).1
  exact ⟨g.act, g.contextFree, g.notified, g.inlineActions⟩

/-! ### The steps of a dispatch -/

/-- The two ways dispatching changes the world: a run of some receiver's code on some action
completed and got its receipt, or the transaction was scheduled. -/
inductive Step (ch : Chain σ) : World σ → World σ → Prop
  | run {w : World σ} {s : σ} (receiver : Name) (act : Action) (contextFree : Bool)
      (h : (ch.run w.chain receiver act contextFree).result = .ok s) :
      Step ch w (w.finishRun s receiver act)
  | schedule {w : World σ} {s : σ} (h : ch.scheduleTransaction w.chain = .ok s) :
      Step ch w { w with chain := s }

theorem execOne_step {w w' : World σ} {ctx ctx' : ApplyContext}
    (h : execOne ch w ctx = .ok (w', ctx')) : Step ch w w' := by
  obtain ⟨_, _, -, -, hs, rfl⟩ := execOne_eq_ok h
  exact .run _ _ _ hs

/-- The runs of `receivers` on `act`, in order, each from the world the one before left, and each
asking to notify only accounts of `notified`. -/
inductive NotifyRuns (ch : Chain σ) (act : Action) (contextFree : Bool) (notified : List Name) :
    World σ → List Name → World σ → Prop
  | nil (w : World σ) : NotifyRuns ch act contextFree notified w [] w
  | cons {w w' : World σ} {s : σ} {receiver : Name} {receivers : List Name}
      (hrun : (ch.run w.chain receiver act contextFree).result = .ok s)
      (hrecipients : (ch.run w.chain receiver act contextFree).recipients ⊆ notified)
      (hrest : NotifyRuns ch act contextFree notified (w.finishRun s receiver act) receivers w') :
      NotifyRuns ch act contextFree notified w (receiver :: receivers) w'

namespace NotifyRuns

variable {act : Action} {contextFree : Bool} {notified : List Name}

theorem steps {w w' : World σ} {receivers : List Name}
    (h : NotifyRuns ch act contextFree notified w receivers w') : Relation.ReflTransGen (Step ch) w w' := by
  induction h with
  | nil => exact .refl
  | cons hrun _ _ ih => exact .head (.run _ _ _ hrun) ih

/-- The runs leave one receipt each, for their receivers in order. -/
theorem receipts {w w' : World σ} {receivers : List Name}
    (h : NotifyRuns ch act contextFree notified w receivers w') :
    ∃ new, w'.executed = w.executed ++ new ∧ new.map (·.receiver) = receivers ∧
      ∀ r ∈ new, r.act = act := by
  induction h with
  | nil w => exact ⟨[], by simp, rfl, by simp⟩
  | @cons w w' s receiver receivers _ _ _ ih =>
    obtain ⟨new, hnew, hmap, hact⟩ := ih
    refine ⟨w.nextReceipt receiver act :: new, by simp [hnew], by simp [hmap], ?_⟩
    intro r hr
    rcases List.mem_cons.1 hr with rfl | hr
    · rfl
    · exact hact r hr

end NotifyRuns

/-- The loop over `_notified` runs every account from index `i` on, each once, from the world the
run before left. -/
theorem notifyLoop_runs {w w' : World σ} {ctx ctx' : ApplyContext} {i : Nat}
    (h : notifyLoop ch w ctx i = .ok (w', ctx')) :
    Grows ctx ctx' ∧
      NotifyRuns ch ctx.act ctx.contextFree ctx'.notified w (ctx'.notified.drop i) w' := by
  induction w, ctx, i using notifyLoop.induct generalizing w' ctx' with
  | case1 w ctx i hi ih =>
    rw [notifyLoop, dif_pos hi, Except.bind_eq_ok] at h
    obtain ⟨⟨w₁, ctx₁⟩, h₁, h₂⟩ := h
    obtain ⟨g₂, runs⟩ := ih w₁ ctx₁ h₂
    -- the run's context differs from `ctx` in its receiver only
    have g₁ : Grows ctx ctx₁ :=
      have g := execOne_grows h₁
      ⟨g.act, g.contextFree, g.notified, g.inlineActions⟩
    obtain ⟨_, s, -, hcalls, hs, rfl⟩ := execOne_eq_ok h₁
    have hi' : i < ctx'.notified.length := lt_of_lt_of_le hi (g₁.trans g₂).notified.length_le
    have hget : ctx'.notified[i] = ctx.notified[i] := ((g₁.trans g₂).notified.getElem hi).symm
    refine ⟨g₁.trans g₂, ?_⟩
    rw [List.drop_eq_getElem_cons hi', hget]
    refine .cons hs (fun x hx => ?_) ?_
    · obtain ⟨s', hx⟩ := Run.mem_recipients.1 hx
      exact g₂.notified.subset ((foldlM_handleCall hcalls).2.1 x s' hx)
    · rw [g₁.act, g₁.contextFree] at runs
      exact runs
  | case2 w ctx i hi =>
    rw [notifyLoop, dif_neg hi, Except.pure_eq_ok, Prod.mk.injEq] at h
    obtain ⟨rfl, rfl⟩ := h
    rw [List.drop_of_length_le (by omega)]
    exact ⟨Grows.refl _, .nil _⟩

/-- The loop past the end of `_notified` runs no one. -/
theorem notifyLoop_of_length_le {w : World σ} {ctx : ApplyContext} {i : Nat}
    (h : ctx.notified.length ≤ i) : notifyLoop ch w ctx i = .ok (w, ctx) := by
  rw [notifyLoop, dif_neg (by omega)]
  rfl

/-- The loop at an account of `_notified` runs it, and goes on from the next. -/
theorem notifyLoop_of_lt {w w' : World σ} {ctx ctx' : ApplyContext} {i : Nat}
    (h : i < ctx.notified.length)
    (hrun : execOne ch w { ctx with receiver := ctx.notified[i] } = .ok (w', ctx')) :
    notifyLoop ch w ctx i = notifyLoop ch w' ctx' (i + 1) := by
  rw [notifyLoop, dif_pos h, hrun]
  rfl

/-! ### A dispatched action -/

/-- `dispatch_action` completed: the receiver ran, then the loop over `_notified`, and then either
the inline actions were dispatched one level deeper, or none was queued at the depth limit. -/
theorem dispatchAction_eq_ok {w w' : World σ} {a : Action} {receiver : Name} {contextFree : Bool}
    {d : Nat} (h : dispatchAction ch w a receiver contextFree d = .ok w') :
    ∃ w₁ ctx₁ w₂ ctx₂,
      execOne ch w ⟨a, receiver, contextFree, d, false, [receiver], List.nodup_singleton _, [], []⟩ =
        .ok (w₁, ctx₁) ∧
      notifyLoop ch w₁ ctx₁ 1 = .ok (w₂, ctx₂) ∧
      ((∃ _ : d < ch.maxInlineActionDepth, ∃ w₃,
          ctx₂.cfaInlineActions.foldlM
            (fun w a => dispatchAction ch w a a.account true (d + 1)) w₂ = .ok w₃ ∧
          ctx₂.inlineActions.foldlM
            (fun w a => dispatchAction ch w a a.account false (d + 1)) w₃ = .ok w') ∨
        (ch.maxInlineActionDepth ≤ d ∧ ctx₂.cfaInlineActions = [] ∧ ctx₂.inlineActions = [] ∧
          w' = w₂)) := by
  rw [dispatchAction] at h
  simp only [Except.bind_eq_ok] at h
  obtain ⟨⟨w₁, ctx₁⟩, h₁, ⟨w₂, ctx₂⟩, h₂, h⟩ := h
  refine ⟨w₁, ctx₁, w₂, ctx₂, h₁, h₂, ?_⟩
  split at h
  · rename_i hd
    obtain ⟨w₃, h₃, h₄⟩ := Except.bind_eq_ok.1 h
    exact .inl ⟨hd, w₃, h₃, h₄⟩
  · rename_i hd
    simp only [Except.bind_eq_ok, eosioAssert_eq_ok, Bool.and_eq_true, List.isEmpty_iff,
      Except.pure_eq_ok] at h
    obtain ⟨_, ⟨hcfa, hinline⟩, rfl⟩ := h
    exact .inr ⟨by omega, hcfa, hinline, rfl⟩

/-- A dispatch is a chain of steps. -/
theorem dispatchAction_steps {w w' : World σ} {a : Action} {receiver : Name} {contextFree : Bool}
    {d : Nat} (h : dispatchAction ch w a receiver contextFree d = .ok w') :
    Relation.ReflTransGen (Step ch) w w' := by
  induction w, a, receiver, contextFree, d using dispatchAction.induct ch generalizing w' with
  | case1 w a receiver contextFree d ihcfa ihinline =>
    obtain ⟨w₁, ctx₁, w₂, ctx₂, h₁, h₂, hloops⟩ := dispatchAction_eq_ok h
    have s₂ : Relation.ReflTransGen (Step ch) w w₂ :=
      .head (execOne_step h₁) (notifyLoop_runs h₂).2.steps
    rcases hloops with ⟨hd, w₃, h₃, h₄⟩ | ⟨-, -, -, rfl⟩
    · have s₃ := List.foldlM_except_reflTransGen (fun w a _ => ihcfa hd w a) h₃
      exact s₂.trans (s₃.trans (List.foldlM_except_reflTransGen (fun w a _ => ihinline hd w a) h₄))
    · exact s₂

/-- A transaction is a chain of steps. -/
theorem exec_steps {w w' : World σ} {trx : Transaction} {applyContextFree : Bool} {delay : Nat}
    (h : exec ch w trx applyContextFree delay = .ok w') : Relation.ReflTransGen (Step ch) w w' := by
  unfold exec at h
  obtain ⟨w₁, h₁, h₂⟩ := Except.bind_eq_ok.1 h
  have s₁ := List.foldlM_except_reflTransGen (r := Step ch) (fun _ _ _ => dispatchAction_steps) h₁
  split at h₂
  · exact s₁.trans (List.foldlM_except_reflTransGen (fun _ _ _ => dispatchAction_steps) h₂)
  · obtain ⟨s, hs, h₃⟩ := Except.bind_eq_ok.1 h₂
    cases Except.pure_eq_ok.1 h₃
    exact s₁.tail (.schedule hs)

/-! ### What every step keeps -/

section Steps

variable {w w' : World σ}

/-- The receipts appended along steps carry the global sequences after the one they started
from, one by one, and the counter has moved past them. -/
theorem steps_globalSequence (h : Relation.ReflTransGen (Step ch) w w') :
    ∃ new, w'.executed = w.executed ++ new ∧
      new.map (·.globalSequence) = List.range' (w.globalActionSequence + 1) new.length ∧
      w'.globalActionSequence = w.globalActionSequence + new.length := by
  induction h with
  | refl => exact ⟨[], by simp, rfl, rfl⟩
  | @tail w₁ _ _ hstep ih =>
    obtain ⟨new, hnew, hmap, hg⟩ := ih
    cases hstep with
    | run receiver act _ _ =>
      refine ⟨new ++ [w₁.nextReceipt receiver act], by simp [hnew], ?_, ?_⟩
      · simp [hmap, hg, List.range'_concat]
        omega
      · simp only [World.finishRun_globalActionSequence, hg, List.length_append,
          List.length_singleton]
        omega
    | schedule _ => exact ⟨new, hnew, hmap, hg⟩

/-- The receipts of `x` appended along steps carry the receive sequences after `x`'s, one by
one, and `x`'s counter has moved past them. -/
theorem steps_recvSequence (h : Relation.ReflTransGen (Step ch) w w') (x : Name) :
    ∃ new, w'.executed = w.executed ++ new ∧
      (new.filter (·.receiver == x)).map (·.recvSequence) =
        List.range' (w.recvSequence x + 1) (new.filter (·.receiver == x)).length ∧
      w'.recvSequence x = w.recvSequence x + (new.filter (·.receiver == x)).length := by
  induction h with
  | refl => exact ⟨[], by simp, rfl, rfl⟩
  | @tail w₁ _ _ hstep ih =>
    obtain ⟨new, hnew, hmap, hr⟩ := ih
    cases hstep with
    | run receiver act _ _ =>
      refine ⟨new ++ [w₁.nextReceipt receiver act], by simp [hnew], ?_⟩
      by_cases hx : receiver = x
      · subst hx
        simp only [List.filter_append, List.filter_singleton, World.nextReceipt_receiver,
          beq_self_eq_true, cond_true, List.map_append, List.length_append, World.finishRun_recvSequence,
          Function.update_self]
        simp [hmap, hr, List.range'_concat]
        omega
      · simp [List.filter_append, hx, hmap, hr, Function.update_of_ne (Ne.symm hx)]
    | schedule _ => exact ⟨new, hnew, hmap, hr⟩

end Steps

/-! ### What a transaction does

The sample runs are on a chain whose state counts the runs: account 1's code asks to notify
account 2, and every other run does nothing. -/

/-- A chain whose state counts the runs: account 1's code asks to notify account 2. -/
def notifyChain : Chain Nat where
  getAccount _ _ := .ok false
  run s receiver _ _ :=
    if receiver = ⟨1⟩ then ⟨[(s, .requireRecipient ⟨2⟩)], .ok (s + 1)⟩ else ⟨[], .ok (s + 1)⟩
  isAccount _ _ := true
  findPermission _ _ := true
  checkAuthorization _ _ _ := .ok ()
  skipAuthCheck := false
  maxInlineActionSize := 512
  maxInlineActionDepth := 4
  scheduleTransaction s := .ok s

/-- No run yet. -/
def world₀ : World Nat := ⟨0, 0, fun _ => 0, fun _ => 0, []⟩

/-- An action of account 1, authorized by its level `⟨1, 3⟩`. -/
def sampleAction : Action := ⟨⟨1⟩, ⟨5⟩, [⟨⟨1⟩, ⟨3⟩⟩], []⟩

/-- The context `dispatch_action` starts the sample action at account 1 with. -/
def sampleContext : ApplyContext :=
  ⟨sampleAction, ⟨1⟩, false, 0, false, [⟨1⟩], List.nodup_singleton _, [], []⟩

/-- Account 1 runs, asks to notify account 2, and account 2 runs. -/
theorem notifyChain_dispatch :
    dispatchAction notifyChain world₀ sampleAction ⟨1⟩ false 0 =
      .ok ((world₀.finishRun 1 ⟨1⟩ sampleAction).finishRun 2 ⟨2⟩ sampleAction) := by
  have h₁ : execOne notifyChain world₀ sampleContext =
      .ok (world₀.finishRun 1 ⟨1⟩ sampleAction, sampleContext.requireRecipient ⟨2⟩) := rfl
  have h₂ : execOne notifyChain (world₀.finishRun 1 ⟨1⟩ sampleAction)
      { sampleContext.requireRecipient ⟨2⟩ with receiver := ⟨2⟩ } =
      .ok ((world₀.finishRun 1 ⟨1⟩ sampleAction).finishRun 2 ⟨2⟩ sampleAction,
        { sampleContext.requireRecipient ⟨2⟩ with receiver := ⟨2⟩ }) := rfl
  have h₃ : notifyLoop notifyChain (world₀.finishRun 1 ⟨1⟩ sampleAction)
      (sampleContext.requireRecipient ⟨2⟩) 1 =
      .ok ((world₀.finishRun 1 ⟨1⟩ sampleAction).finishRun 2 ⟨2⟩ sampleAction,
        { sampleContext.requireRecipient ⟨2⟩ with receiver := ⟨2⟩ }) := by
    rw [notifyLoop_of_lt (by decide) h₂, notifyLoop_of_length_le (by decide)]
  -- `dispatch_action` starts from `sampleContext`
  rw [dispatchAction, show (⟨sampleAction, ⟨1⟩, false, 0, false, [⟨1⟩], List.nodup_singleton _,
    [], []⟩ : ApplyContext) = sampleContext from rfl, h₁, Except.ok_bind]
  simp only [h₃, Except.ok_bind]
  rfl

/-- A dispatched action that completes ran its receiver and then every account notified, each
once and in the order first asked, each from the world the run before left; every account one of
these runs asked to notify is among them, and their receipts come first, in that order. -/
theorem dispatchAction_notifies {w w' : World σ} {a : Action} {receiver : Name}
    {contextFree : Bool} {d : Nat} (h : dispatchAction ch w a receiver contextFree d = .ok w') :
    ∃ notified w₁, notified.Nodup ∧ notified.head? = some receiver ∧
      NotifyRuns ch a contextFree notified w notified w₁ ∧
      (∃ new, w₁.executed = w.executed ++ new ∧ new.map (·.receiver) = notified ∧
        ∀ r ∈ new, r.act = a) ∧
      Relation.ReflTransGen (Step ch) w₁ w' := by
  obtain ⟨w₁, ctx₁, w₂, ctx₂, h₁, h₂, hloops⟩ := dispatchAction_eq_ok h
  obtain ⟨g₂, runs⟩ := notifyLoop_runs h₂
  have g₁ := execOne_grows h₁
  obtain ⟨_, s, -, hcalls, hs, rfl⟩ := execOne_eq_ok h₁
  -- `_notified` starts with the receiver, and the loop runs the rest
  obtain ⟨rest, hrest⟩ : ∃ rest, ctx₂.notified = receiver :: rest := by
    obtain ⟨t, ht⟩ := (g₁.trans g₂).notified
    exact ⟨t, ht.symm⟩
  rw [g₁.act, g₁.contextFree, hrest, List.drop_one, List.tail_cons] at runs
  have hrecipients : (ch.run w.chain receiver a contextFree).recipients ⊆ receiver :: rest := by
    intro x hx
    obtain ⟨s', hx⟩ := Run.mem_recipients.1 hx
    rw [← hrest]
    exact g₂.notified.subset ((foldlM_handleCall hcalls).2.1 x s' hx)
  have hruns : NotifyRuns ch a contextFree (receiver :: rest) w (receiver :: rest) w₂ :=
    .cons hs hrecipients runs
  refine ⟨receiver :: rest, w₂, hrest ▸ ctx₂.notifiedNodup, rfl, hruns, hruns.receipts, ?_⟩
  -- then the inline actions, each a dispatch of its own
  rcases hloops with ⟨-, w₃, h₃, h₄⟩ | ⟨-, -, -, rfl⟩
  · exact (List.foldlM_except_reflTransGen (fun _ _ _ => dispatchAction_steps) h₃).trans
      (List.foldlM_except_reflTransGen (fun _ _ _ => dispatchAction_steps) h₄)
  · exact .refl

theorem dispatchAction_notifies_notifyChain :
    ∃ w', dispatchAction notifyChain world₀ sampleAction ⟨1⟩ false 0 = .ok w' ∧
      ∃ notified w₁, notified.Nodup ∧ notified.head? = some ⟨1⟩ ∧
        NotifyRuns notifyChain sampleAction false notified world₀ notified w₁ ∧
        (∃ new, w₁.executed = world₀.executed ++ new ∧ new.map (·.receiver) = notified ∧
          ∀ r ∈ new, r.act = sampleAction) ∧
        Relation.ReflTransGen (Step notifyChain) w₁ w' :=
  ⟨_, notifyChain_dispatch, dispatchAction_notifies notifyChain_dispatch⟩

/-- The sample action as a transaction of its own, with no delay. -/
def sampleTransaction : Transaction := ⟨0, 0, 0, [], [sampleAction]⟩

/-- A context-free action that completes called none of the context-aware intrinsics: its
dispatch is one run of its receiver, with one receipt. -/
theorem dispatchAction_contextFree {w w' : World σ} {a : Action} {receiver : Name} {d : Nat}
    (h : dispatchAction ch w a receiver true d = .ok w') :
    ∃ s, (ch.run w.chain receiver a true).calls = [] ∧
      (ch.run w.chain receiver a true).result = .ok s ∧ w' = w.finishRun s receiver a := by
  obtain ⟨w₁, ctx₁, w₂, ctx₂, h₁, h₂, hloops⟩ := dispatchAction_eq_ok h
  obtain ⟨_, s, -, hcalls, hs, rfl⟩ := execOne_eq_ok h₁
  obtain ⟨hnil, rfl⟩ := foldlM_handleCall_of_contextFree rfl hcalls
  -- `_notified` holds the receiver alone, so the loop from index 1 runs no one
  rw [notifyLoop, dif_neg (by simp), Except.pure_eq_ok, Prod.mk.injEq] at h₂
  obtain ⟨rfl, rfl⟩ := h₂
  refine ⟨s, hnil, hs, ?_⟩
  rcases hloops with ⟨-, w₃, h₃, h₄⟩ | ⟨-, -, -, rfl⟩
  · -- no inline action was queued
    cases Except.pure_eq_ok.1 h₃
    exact (Except.pure_eq_ok.1 h₄).symm
  · rfl

theorem dispatchAction_contextFree_notifyChain :
    ∃ w', dispatchAction notifyChain world₀ sampleAction ⟨3⟩ true 0 = .ok w' ∧
      ∃ s, (notifyChain.run world₀.chain ⟨3⟩ sampleAction true).calls = [] ∧
        (notifyChain.run world₀.chain ⟨3⟩ sampleAction true).result = .ok s ∧
        w' = world₀.finishRun s ⟨3⟩ sampleAction := by
  have h₁ : execOne notifyChain world₀
      ⟨sampleAction, ⟨3⟩, true, 0, false, [⟨3⟩], List.nodup_singleton _, [], []⟩ =
      .ok (world₀.finishRun 1 ⟨3⟩ sampleAction,
        ⟨sampleAction, ⟨3⟩, true, 0, false, [⟨3⟩], List.nodup_singleton _, [], []⟩) := rfl
  have h₂ : notifyLoop notifyChain (world₀.finishRun 1 ⟨3⟩ sampleAction)
      ⟨sampleAction, ⟨3⟩, true, 0, false, [⟨3⟩], List.nodup_singleton _, [], []⟩ 1 =
      .ok (world₀.finishRun 1 ⟨3⟩ sampleAction,
        ⟨sampleAction, ⟨3⟩, true, 0, false, [⟨3⟩], List.nodup_singleton _, [], []⟩) :=
    notifyLoop_of_length_le (by decide)
  have h : dispatchAction notifyChain world₀ sampleAction ⟨3⟩ true 0 =
      .ok (world₀.finishRun 1 ⟨3⟩ sampleAction) := by
    rw [dispatchAction, h₁, Except.ok_bind]
    simp only [h₂, Except.ok_bind]
    rfl
  exact ⟨_, h, dispatchAction_contextFree h⟩

/-- Code that sends an inline action on every run outside a context-free action never completes
such an action: each inline action runs one level deeper, until the depth limit aborts the
transaction. -/
theorem always_inline_aborts
    (hsend : ∀ s receiver a, ∃ s' a' n, (s', Call.sendInline a' n) ∈ (ch.run s receiver a false).calls)
    {w w' : World σ} {a : Action} {receiver : Name} {contextFree : Bool} {d : Nat}
    (hcf : contextFree = false) : dispatchAction ch w a receiver contextFree d ≠ .ok w' := by
  induction w, a, receiver, contextFree, d using dispatchAction.induct ch generalizing w' with
  | case1 w a receiver contextFree d _ ihinline =>
    intro h
    subst hcf
    obtain ⟨w₁, ctx₁, w₂, ctx₂, h₁, h₂, hloops⟩ := dispatchAction_eq_ok h
    -- the receiver's run sent an inline action, which stays queued
    obtain ⟨s', a', n, hmem⟩ := hsend w.chain receiver a
    obtain ⟨_, _, -, hcalls, -, -⟩ := execOne_eq_ok h₁
    have ha' : a' ∈ ctx₂.inlineActions :=
      (notifyLoop_runs h₂).1.inlineActions.subset ((foldlM_handleCall hcalls).2.2 a' n s' hmem)
    rcases hloops with ⟨hd, w₃, -, h₄⟩ | ⟨-, -, hnil, -⟩
    · -- one level deeper, its dispatch aborts in turn
      obtain ⟨w₄, w₅, h₅⟩ := List.foldlM_except_pass h₄ ha'
      exact ihinline hd w₄ a' rfl h₅
    · rw [hnil] at ha'
      cases ha'

/-- A chain whose every run sends its action on again, inline. -/
def inlineChain : Chain Nat :=
  { notifyChain with run := fun s _ a _ => ⟨[(s, .sendInline a 0)], .ok s⟩ }

theorem always_inline_aborts_inlineChain :
    (∀ s receiver a, ∃ s' a' n,
      (s', Call.sendInline a' n) ∈ (inlineChain.run s receiver a false).calls) ∧
      dispatchAction inlineChain world₀ sampleAction ⟨1⟩ false 0 ≠ .ok world₀ := by
  have hsend : ∀ s receiver a, ∃ s' a' n,
      (s', Call.sendInline a' n) ∈ (inlineChain.run s receiver a false).calls :=
    fun s _ a => ⟨s, a, 0, List.mem_singleton_self _⟩
  exact ⟨hsend, always_inline_aborts hsend rfl⟩

end Dispatch
end Safeos
