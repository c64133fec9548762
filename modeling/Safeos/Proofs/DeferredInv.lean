import Safeos.Proofs.RamBilling

/-!
# Deferred transactions

A `generated_transaction_object` is found by its `by_sender_id` key and by its `trx_id`, and
`push_scheduled_transaction` records the receipt of what it executes under the stored `trx_id`.
`DeferredInv` says that every stored transaction is coherent: kept under its key, with the id of
its packed transaction, its delay and expiration as scheduled, and a sender-less one under the
sender id of its id; and that every receipt carries the id of what was executed. Creation,
cancellation and retirement keep it. Replacement does not: `schedule_deferred_transaction`
rewrites the packed transaction in place and keeps the old `trx_id`, and
`replaced_receipt_id` runs a replacement through to a receipt under the old id.
-/

namespace Safeos
namespace Database

/-- A deferred transaction stored coherently under the key `k`. -/
structure Coherent (env : Env) (k : Name × Nat) (g : GeneratedTransactionObject) : Prop where
  /-- It is kept under its `by_sender_id` key. -/
  key : k = (g.sender, g.senderId)
  /-- Its `trx_id` is the id of its packed transaction. -/
  id : g.trxId = env.trxId g.packedTrx
  /-- It is delayed by the delay of its packed transaction. -/
  delay : g.delayUntil = g.published + g.packedTrx.delaySec * 1000000
  expiration : g.delayUntil ≤ g.expiration
  /-- A transaction without sender is kept under the sender id of its id. -/
  senderId : g.sender = default → g.senderId = transactionIdToSenderId g.trxId

/-- The deferred transactions are coherent, and so are the receipts of those executed. -/
structure DeferredInv (env : Env) (db : Database) : Prop where
  coherent : ∀ k g, db.generated.lookup k = some g → Coherent env k g
  receipt : ∀ p ∈ db.retired, p.1 = env.trxId p.2

namespace DeferredInv

variable {env : Env} {ctx : ActionContext} {db db' : Database}

theorem init : DeferredInv env init :=
  ⟨by simp [Database.init], by simp [Database.init]⟩

/-- An operation that leaves the deferred transactions and the receipts alone. -/
theorem congr (hi : DeferredInv env db) (hg : db'.generated = db.generated)
    (hr : db'.retired = db.retired) : DeferredInv env db' := by
  obtain ⟨h₁, h₂⟩ := hi
  rw [← hg, ← hr] at *
  exact ⟨h₁, h₂⟩

theorem create (hi : DeferredInv env db) {k : Name × Nat} {g : GeneratedTransactionObject} {d : Int}
    (hk : k = (g.sender, g.senderId)) (hid : g.trxId = env.trxId g.packedTrx)
    (hsender : g.sender = ctx.receiver ∨
      (g.sender = default ∧ g.senderId = transactionIdToSenderId g.trxId))
    (hdelay : g.delayUntil = g.published + g.packedTrx.delaySec * 1000000)
    (hexpiration : g.expiration = g.delayUntil + env.deferredTrxExpirationWindow * 1000000)
    (hrecv : ctx.receiver ≠ default) :
    DeferredInv env ({ db with generated := db.generated.insert k g }.charge g.payer d) := by
  refine ⟨fun k' g' h' => ?_, hi.receipt⟩
  rcases AList.lookup_insert_cases h' with ⟨rfl, rfl⟩ | ⟨-, h'⟩
  · refine ⟨hk, hid, hdelay, by omega, fun hd => ?_⟩
    -- a contract's own transaction has a sender, since accounts have names
    rcases hsender with hs | ⟨-, hs⟩
    · exact absurd (hs ▸ hd) hrecv
    · exact hs
  · exact hi.coherent _ _ h'

theorem cancel (hi : DeferredInv env db) {k : Name × Nat} {p : Name} {d : Int} :
    DeferredInv env ({ db with generated := db.generated.erase k }.charge p d) := by
  refine ⟨fun k' g' h' => ?_, hi.receipt⟩
  exact hi.coherent _ _ (AList.lookup_of_lookup_erase h').2

/-- The receipt of a retired transaction is recorded under its id. -/
theorem retire (hi : DeferredInv env db) {k : Name × Nat} {g : GeneratedTransactionObject}
    {d : Int} (hg : db.generated.lookup k = some g) :
    DeferredInv env { { db with generated := db.generated.erase k }.charge g.payer d with
      retired := db.retired ++ [(g.trxId, g.packedTrx)] } := by
  refine ⟨(hi.cancel (p := g.payer) (d := d)).coherent, fun p hp => ?_⟩
  rcases List.mem_append.1 hp with hp | hp
  · exact hi.receipt p hp
  · rw [List.mem_singleton.1 hp]
    exact (hi.coherent _ _ hg).id

/-- Every completed operation that replaces nothing, in the action of a named account, keeps
the deferred transactions coherent. -/
theorem effect (hi : DeferredInv env db) (he : Effect env ctx db false db')
    (hrecv : ctx.receiver ≠ default) : DeferredInv env db' := by
  cases he with
  | store htab => rcases htab with ⟨-, rfl⟩ | ⟨-, -, rfl⟩ <;> exact hi.congr rfl rfl
  | update | remove | removeLast => exact hi.congr rfl rfl
  | create _ hk _ hid hsender hdelay hexpiration =>
    exact hi.create hk hid hsender hdelay hexpiration hrecv
  | cancel => exact hi.cancel
  | retire hg => exact hi.retire hg
  | unchanged => exact hi

/-- `canceldelay` of an id reaches the transaction without sender of that id. -/
theorem lookup_canceldelay (hi : DeferredInv env db) {k : Name × Nat}
    {g : GeneratedTransactionObject} (hg : db.generated.lookup k = some g) (hd : g.sender = default) :
    db.generated.lookup (default, transactionIdToSenderId g.trxId) = some g := by
  have hc := hi.coherent _ _ hg
  rw [← hd, ← hc.senderId hd, ← hc.key]
  exact hg

end DeferredInv

theorem DeferredInv.step (env : Env) :
    Transition.PreservesUnder
      (fun _ (r : Request) => r.op.replaceExisting = false ∧ r.ctx.receiver ≠ default)
      (DeferredInv env) (step env) := by
  rintro db r db' ⟨hrep, hrecv⟩ hi h
  have he := step_effect h
  rw [hrep] at he
  exact hi.effect he hrecv

/-- `a` replaces its transaction, and the controller then pushes it by the id it is stored
under. -/
def replacePushRequests (env : Env) (a : Name) (t₁ t₂ : Transaction) : List Request :=
  replaceRequests a t₁ t₂ ++
    [⟨selfContext a, .pushScheduledTransaction (env.trxId ((selfContext a).prepareDeferred t₁))⟩]

/-- The replacement executes `t₂` and records its receipt under the id of `t₁`. -/
theorem replaced_receipt_id (env : Env) (a : Name) (t₁ t₂ : Transaction)
    (h₁ : t₁.contextFreeActions = []) (h₂ : t₂.contextFreeActions = []) (hdelay : t₂.delaySec = 0)
    (hsize : env.packSize ((selfContext a).prepareDeferred t₁) +
      env.packSize ((selfContext a).prepareDeferred t₂) ≤ 2 ^ 62) :
    (after env (replacePushRequests env a t₁ t₂)).retired =
      [(env.trxId ((selfContext a).prepareDeferred t₁), (selfContext a).prepareDeferred t₂)] := by
  have hbill : (generatedTransactionBillableSize : Int) = 272 := rfl
  obtain ⟨g₁, g₂, hpayer₁, hpacked₁, hid₁, hpayer₂, hpacked₂, hid₂, hdelay₂, hrun⟩ :=
    after_replaceRequests env a t₁ t₂ h₁ h₂ hsize
  set db₂ := after env (replaceRequests a t₁ t₂) with hdb₂
  -- the one stored transaction is found under the id of `t₁`
  have hfind : db₂.generated.entries.find?
      (·.2.trxId == env.trxId ((selfContext a).prepareDeferred t₁)) = some ⟨(a, 1), g₂⟩ := by
    simp [hrun, Database.init, hid₂, hid₁]
  have hpush := @pushScheduledTransaction_of_find (selfContext a) env db₂ _ (a, 1) g₂ hfind
    (by simp [hdelay₂, hdelay])
    (by simp [hrun, charge_ramUsage, Database.init, hpayer₂, hpacked₁, hpacked₂]; omega)
  have e : step env db₂ ⟨selfContext a, .pushScheduledTransaction
      (env.trxId ((selfContext a).prepareDeferred t₁))⟩ = .ok _ := hpush
  rw [replacePushRequests, after, Transition.run_append, ← after, ← hdb₂, Transition.run_cons,
    Transition.commit_of_ok e, Transition.run_nil]
  simp [hrun, Database.init, hid₂, hid₁, hpacked₂]

/-- An environment whose transaction ids count the actions. -/
def actionCountEnv : Env := ⟨fun t => t.actions.length, fun _ => 0, 0⟩

/-- A transaction with one action of `eosio`. -/
def oneActionTransaction : Transaction :=
  { emptyTransaction with
    actions := [⟨Config.systemAccountName, Config.systemAccountName, [], []⟩] }

theorem replaced_receipt_id_one_action :
    emptyTransaction.contextFreeActions = [] ∧ oneActionTransaction.contextFreeActions = [] ∧
      oneActionTransaction.delaySec = 0 ∧
      actionCountEnv.packSize ((selfContext Config.systemAccountName).prepareDeferred
          emptyTransaction) +
        actionCountEnv.packSize ((selfContext Config.systemAccountName).prepareDeferred
          oneActionTransaction) ≤ 2 ^ 62 ∧
      (after actionCountEnv (replacePushRequests actionCountEnv Config.systemAccountName
          emptyTransaction oneActionTransaction)).retired =
        [(actionCountEnv.trxId ((selfContext Config.systemAccountName).prepareDeferred
            emptyTransaction),
          (selfContext Config.systemAccountName).prepareDeferred oneActionTransaction)] :=
  ⟨rfl, rfl, rfl, by simp [actionCountEnv],
    replaced_receipt_id actionCountEnv Config.systemAccountName emptyTransaction
      oneActionTransaction rfl rfl rfl (by simp [actionCountEnv])⟩

end Database
end Safeos
