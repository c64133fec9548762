import Safeos.Chain.ApplyContext
import Mathlib.Data.FinEnum

/-!
# Running an action and what it sends (`apply_context::exec`, `transaction_context::exec`)

`transaction_context::exec` dispatches the context-free actions of a transaction, then its
actions, or schedules the transaction when it has a delay. Dispatching an action builds an
`apply_context` whose `exec` runs the receiver's code (`exec_one`), then the code of every
account a run asked to notify (`require_recipient`), each once and in the order first asked, and
last dispatches the inline actions the runs sent, the context-free ones first, one level deeper.
Every run ends with a receipt: the next global action sequence, the next receive sequence of its
receiver and the next authorization sequence of each of its actors, appended to the
transaction's `executed` list.

The code of a receiver (its native handler and its WebAssembly) is not modelled: `Chain.run` says
what one run did, as the intrinsics it called, each with the state of the chain at the call, and
the state it left or the abort it ended with. Any abort aborts the transaction. What
`execute_inline` checks is read from the chain through `Chain` as well. The action traces, the
console, the timer and the code and ABI sequences of a receipt are left out.
-/

namespace Safeos
namespace Dispatch

/-- The intrinsics through which a receiver's code adds to what its action does. -/
inductive Call where
  /-- `require_recipient` -/
  | requireRecipient (recipient : Name)
  /-- `send_inline`, with the size of the packed action -/
  | sendInline (act : Action) (dataLen : Nat)
  /-- `send_context_free_inline` -/
  | sendContextFreeInline (act : Action) (dataLen : Nat)
deriving DecidableEq, Repr

/-- One run of a receiver's code: the intrinsics it called, each with the state of the chain at
the call, and the state it left or its abort. -/
structure Run (σ : Type) where
  calls : List (σ × Call)
  result : Except String σ

/-- What dispatching reads of the rest of the chain, whose state is `σ`. -/
structure Chain (σ : Type) where
  /-- `controller::get_account`: the `privileged` flag; it aborts for an unknown account. -/
  getAccount : σ → Name → Except String Bool
  /-- The receiver's native handler and code on the action; the flag is `context_free`. -/
  run : σ → Name → Action → Bool → Run σ
  /-- `is_account`. -/
  isAccount : σ → Name → Bool
  /-- `authorization_manager::find_permission` finds the level. -/
  findPermission : σ → PermissionLevel → Bool
  /-- `check_authorization` of an inline action, with the `eosio.code` permission of the
  receiver as the only permission provided. -/
  checkAuthorization : σ → Action → Name → Except String Unit
  skipAuthCheck : Bool
  maxInlineActionSize : Nat
  maxInlineActionDepth : Nat
  /-- `transaction_context::schedule_transaction`. -/
  scheduleTransaction : σ → Except String σ

/-- `action_receipt`. The action stands for its digest, and `auth_sequence` (a `flat_map`) keeps
the order its actors were first set in. -/
structure ActionReceipt where
  receiver : Name
  act : Action
  globalSequence : Nat
  recvSequence : Nat
  authSequence : AList (fun _ : Name => Nat)

/-- What dispatching changes: the chain as the runs leave it, the counters behind the receipts
(`global_action_sequence` of the dynamic global properties, `recv_sequence` and `auth_sequence`
of each `account_sequence_object`, all `uint64_t`, which no chain reaches the top of), and the
receipts of the transaction (`transaction_context::executed`). -/
structure World (σ : Type) where
  chain : σ
  globalActionSequence : Nat
  recvSequence : Name → Nat
  authSequence : Name → Nat
  executed : List ActionReceipt

/-- The loop over the action's authorizations in `exec_one`: each bumps its actor's
`auth_sequence`, and the receipt keeps the last value of each actor. -/
def nextAuthSequences (authSequence : Name → Nat) (auths : List PermissionLevel) :
    AList (fun _ : Name => Nat) × (Name → Nat) :=
  auths.foldl (fun (m, f) auth =>
    let n := f auth.actor + 1
    (m.insert auth.actor n, Function.update f auth.actor n)) (∅, authSequence)

namespace World

variable {σ : Type} (w : World σ)

/-- The receipt of a run of `receiver` on `act`: `next_global_sequence`, `next_recv_sequence`
and `next_auth_sequence` give the values after `w`'s. -/
def nextReceipt (receiver : Name) (act : Action) : ActionReceipt :=
  ⟨receiver, act, w.globalActionSequence + 1, w.recvSequence receiver + 1,
    (nextAuthSequences w.authSequence act.authorization).1⟩

/-- The end of `exec_one`, after the run left the chain at `chain`: the counters move on and the
receipt joins `executed`. -/
def finishRun (chain : σ) (receiver : Name) (act : Action) : World σ :=
  { chain
    globalActionSequence := w.globalActionSequence + 1
    recvSequence := Function.update w.recvSequence receiver (w.recvSequence receiver + 1)
    authSequence := (nextAuthSequences w.authSequence act.authorization).2
    executed := w.executed ++ [w.nextReceipt receiver act] }

end World

/-- The part of an `apply_context` that `exec` uses: the action, the current receiver, the
accounts to notify (`_notified`, which never holds an account twice) and the queued inline
actions. -/
structure ApplyContext where
  act : Action
  receiver : Name
  contextFree : Bool
  recurseDepth : Nat
  privileged : Bool
  notified : List Name
  notifiedNodup : notified.Nodup
  inlineActions : List Action
  cfaInlineActions : List Action

namespace ApplyContext

/-- `has_recipient`. -/
def hasRecipient (ctx : ApplyContext) (code : Name) : Bool := ctx.notified.contains code

/-- `require_recipient`: an account not yet notified goes to the end of the list. -/
def requireRecipient (ctx : ApplyContext) (recipient : Name) : ApplyContext :=
  if h : !ctx.hasRecipient recipient then
    { ctx with
      notified := ctx.notified ++ [recipient]
      notifiedNodup := by
        rw [← List.concat_eq_append]
        exact ctx.notifiedNodup.concat (by simpa [hasRecipient] using h) }
  else ctx

/-- A list of distinct names is at most as long as there are names. -/
theorem length_notified_le (ctx : ApplyContext) : ctx.notified.length ≤ 2 ^ 64 := by
  have hinj : Function.Injective Name.value := by
    intro a b h
    cases a
    cases b
    cases h
    rfl
  calc ctx.notified.length = (ctx.notified.map Name.value).length := (List.length_map _).symm
    _ ≤ Fintype.card UInt64 := (ctx.notifiedNodup.map hinj).length_le_card
    _ = 2 ^ 64 := by simp [← FinEnum.card_eq_fintypeCard]

/-- The check of `context_aware_api`'s constructor: the intrinsics here are not available to a
context-free action. -/
def contextAwareApi (ctx : ApplyContext) : Except String Unit :=
  eosioAssert (!ctx.contextFree) "only context free api's can be used in this context"

variable {σ : Type} (ch : Chain σ)

/-- `apply_context::execute_inline`: the code account, the actors and their permissions must
exist, and an action for another account, sent by an unprivileged receiver, must be authorized
by the receiver's `eosio.code` permission. -/
def executeInline (s : σ) (ctx : ApplyContext) (a : Action) : Except String ApplyContext := do
  eosioAssert (ch.isAccount s a.account)
    "inline action's code account ${account} does not exist"
  a.authorization.forM fun auth => do
    eosioAssert (ch.isAccount s auth.actor)
      "inline action's authorizing actor ${account} does not exist"
    eosioAssert (ch.findPermission s auth)
      "inline action's authorizations include a non-existent permission: ${permission}"
  if !ch.skipAuthCheck && !ctx.privileged && a.account != ctx.receiver then
    ch.checkAuthorization s a ctx.receiver
  pure { ctx with inlineActions := ctx.inlineActions ++ [a] }

/-- `apply_context::execute_context_free_inline`. -/
def executeContextFreeInline (s : σ) (ctx : ApplyContext) (a : Action) :
    Except String ApplyContext := do
  eosioAssert (ch.isAccount s a.account)
    "inline action's code account ${account} does not exist"
  eosioAssert a.authorization.isEmpty "context-free actions cannot have authorizations"
  pure { ctx with cfaInlineActions := ctx.cfaInlineActions ++ [a] }

/-- An intrinsic call of the running code, at the state of the chain at the call:
`require_recipient`, or `send_inline` and `send_context_free_inline`, which check the size of
the packed action first. -/
def handleCall (ctx : ApplyContext) : σ × Call → Except String ApplyContext
  | (_, .requireRecipient recipient) => do
    ctx.contextAwareApi
    pure (ctx.requireRecipient recipient)
  | (s, .sendInline a dataLen) => do
    ctx.contextAwareApi
    eosioAssert (dataLen < ch.maxInlineActionSize) "inline action too big"
    ctx.executeInline ch s a
  | (s, .sendContextFreeInline a dataLen) => do
    ctx.contextAwareApi
    eosioAssert (dataLen < ch.maxInlineActionSize) "inline action too big"
    ctx.executeContextFreeInline ch s a

end ApplyContext

open ApplyContext

variable {σ : Type} (ch : Chain σ)

/-- `apply_context::exec_one`: the receiver's account is read, its code runs and each intrinsic it
calls is handled in turn, and the run ends with the receipt. -/
def execOne (w : World σ) (ctx : ApplyContext) : Except String (World σ × ApplyContext) := do
  -- the receipt's receiver and action digest are taken before the run
  let receiver := ctx.receiver
  let act := ctx.act
  let privileged ← ch.getAccount w.chain receiver
  let run := ch.run w.chain receiver act ctx.contextFree
  let ctx ← run.calls.foldlM (handleCall ch) { ctx with privileged }
  let chain ← run.result
  pure (w.finishRun chain receiver act, ctx)

/-- The loop of `apply_context::exec` over `_notified` from index `i`, which the runs may lengthen.
It ends because `_notified` holds no name twice. -/
def notifyLoop (w : World σ) (ctx : ApplyContext) (i : Nat) :
    Except String (World σ × ApplyContext) :=
  if h : i < ctx.notified.length then do
    let (w', ctx') ← execOne ch w { ctx with receiver := ctx.notified[i] }
    notifyLoop w' ctx' (i + 1)
  else pure (w, ctx)
termination_by 2 ^ 64 - i
decreasing_by
  have := ctx.length_notified_le
  omega

/-- `transaction_context::dispatch_action` and `apply_context::exec`: the receiver runs (it is
the first of `_notified`), then every account notified, and the inline actions sent are
dispatched with `recurse_depth + 1`, the context-free ones first. -/
def dispatchAction (w : World σ) (a : Action) (receiver : Name) (contextFree : Bool)
    (recurseDepth : Nat) : Except String (World σ) := do
  let ctx : ApplyContext :=
    ⟨a, receiver, contextFree, recurseDepth, false, [receiver], List.nodup_singleton _, [], []⟩
  let (w, ctx) ← execOne ch w ctx
  let (w, ctx) ← notifyLoop ch w ctx 1
  if h : recurseDepth < ch.maxInlineActionDepth then
    let w ← ctx.cfaInlineActions.foldlM
      (fun w a => dispatchAction w a a.account true (recurseDepth + 1)) w
    ctx.inlineActions.foldlM (fun w a => dispatchAction w a a.account false (recurseDepth + 1)) w
  else do
    -- at the limit the depth check fails if anything was queued, and the loops then dispatch nothing
    eosioAssert (ctx.cfaInlineActions.isEmpty && ctx.inlineActions.isEmpty)
      "max inline action depth per transaction reached"
    pure w
termination_by ch.maxInlineActionDepth - recurseDepth

/-- `transaction_context::exec`: the context-free actions when they are applied, then the actions
unless the transaction is delayed, in which case it is scheduled. -/
def exec (w : World σ) (trx : Transaction) (applyContextFree : Bool) (delay : Nat) :
    Except String (World σ) := do
  -- the loop over the context-free actions runs only when they are applied
  let contextFreeActions := if applyContextFree then trx.contextFreeActions else []
  let w ← contextFreeActions.foldlM (fun w act => dispatchAction ch w act act.account true 0) w
  if delay = 0 then
    trx.actions.foldlM (fun w act => dispatchAction ch w act act.account false 0) w
  else do
    let chain ← ch.scheduleTransaction w.chain
    pure { w with chain }

end Dispatch
end Safeos
