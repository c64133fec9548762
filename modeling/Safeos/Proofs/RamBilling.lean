import Safeos.Proofs.TableInv

/-!
# RAM billing

`add_ram_usage` keeps per account the bytes billed to it. What an account pays for is its rows
at their billable size, its tables, and its deferred transactions with their packed size
(`billedRam`). Every operation moves the ledger by exactly what it moves that sum, with one
exception: `schedule_deferred_transaction` replacing a transaction charges the new payer for the
new one and refunds nobody for the old one (the source keeps the refund commented out, as a known
bug), so the replaced transaction stays billed to its payer. `billing_exact` is the first half,
over runs that replace nothing; `replace_overbills` runs a replacement.
-/

namespace Safeos
namespace Database

open AList (Shift)

/-- What `a` pays for a row. -/
def rowBill (a : Name) (k : RowKey) (r : ContractRow) : Int :=
  if a = r.payer then k.billableSize r else 0

/-- What `a` pays for a table. -/
def tableBill (a : Name) (_ : Nat) (t : TableIdObject) : Int :=
  if a = t.payer then tableBillableSize else 0

/-- What `a` pays for a deferred transaction. -/
def generatedBill (env : Env) (a : Name) (_ : Name × Nat) (g : GeneratedTransactionObject) : Int :=
  if a = g.payer then generatedTransactionBillableSize + env.packSize g.packedTrx else 0

/-- The bytes the database holds on `a`'s bill. -/
def billedRam (env : Env) (db : Database) (a : Name) : Int :=
  db.rows.sum (rowBill a) + db.tables.sum (tableBill a) + db.generated.sum (generatedBill env a)

/-- The part of `a`'s ledger that no stored byte accounts for. -/
def unbilled (env : Env) (db : Database) (a : Name) : Int :=
  db.ramUsage a - billedRam env db a

variable {env : Env} {ctx : ActionContext} {db db' : Database} {rep : Bool} {a : Name}

@[simp] theorem unbilled_charge (p : Name) (d : Int) :
    unbilled env (db.charge p d) a = unbilled env db a + if a = p then d else 0 := by
  simp only [unbilled, billedRam, charge_ramUsage, charge_rows, charge_tables, charge_generated]
  abel

/-- Rewriting a row under the same payer and size bills nothing. -/
theorem sum_insert_of_bill_eq {ν : Type} {α : Type} [DecidableEq α] {f : α → ν → Int}
    {s : AList fun _ : α => ν} {k : α} {b₀ b : ν} (h : s.lookup k = some b₀) (hf : f k b = f k b₀) :
    (s.insert k b).sum f = s.sum f := by
  have := (AList.shift_insert (v := f) (t := s) (d := 0) (by rw [h, hf]; simp)).sum
  rwa [add_zero] at this

/-- A store: the row, and a table it creates, go on the bills their payers are charged. -/
theorem unbilled_store (hids : IdsBelow db) {db₁ : Database} {tid : Nat} {t : TableIdObject}
    {key : RowKey} {r : ContractRow}
    (htab : (db.tables.lookup tid = some t ∧ db₁ = db) ∨
      (tid = db.nextTableId ∧ t.count = 0 ∧ db₁ = { db.charge t.payer tableBillableSize with
        tables := db.tables.insert tid t, nextTableId := tid + 1 }))
    (hfresh : db₁.rows.lookup key = none) :
    unbilled env ({ db₁ with
      rows := db₁.rows.insert key r
      tables := db₁.tables.insert tid { t with count := t.count + 1 } }.charge r.payer
        (key.billableSize r)) a = unbilled env db a := by
  have hrow := (AList.shift_insert (v := rowBill a) (t := db₁.rows) (a := key) (b := r)
    (d := rowBill a key r) (by rw [hfresh]; simp)).sum
  -- the count of the table changes, not its payer
  have htable : ∀ {T : AList fun _ : Nat => TableIdObject}, T.lookup tid = some t →
      (T.insert tid { t with count := t.count + 1 }).sum (tableBill a) = T.sum (tableBill a) :=
    fun hT => sum_insert_of_bill_eq hT rfl
  rw [unbilled_charge]
  rcases htab with ⟨hl, rfl⟩ | ⟨rfl, -, rfl⟩
  · simp only [unbilled, billedRam] at hrow ⊢
    rw [hrow, htable hl, rowBill]
    split_ifs <;> abel
  · have hnew : db.nextTableId ∉ db.tables := fun hm => by
      obtain ⟨t', ht'⟩ := Option.isSome_iff_exists.1 (AList.lookup_isSome.2 hm)
      exact lt_irrefl _ (hids _ _ ht')
    simp only [unbilled, billedRam] at hrow ⊢
    rw [hrow, htable (AList.lookup_insert _), AList.sum_insert_of_notMem _ _ hnew, charge_ramUsage,
      rowBill, tableBill]
    simp only [charge_rows]
    split_ifs <;> abel

theorem unbilled_update {key : RowKey} {obj r : ContractRow}
    (hobj : db.rows.lookup key = some obj) :
    unbilled env { (db.charge obj.payer (-key.billableSize obj)).charge r.payer
      (key.billableSize r) with rows := db.rows.insert key r } a = unbilled env db a := by
  have hrow := (AList.shift_insert (v := rowBill a) (t := db.rows) (a := key) (b := r)
    (d := rowBill a key r - rowBill a key obj) (by rw [hobj]; simp)).sum
  simp only [unbilled, billedRam, charge_ramUsage, charge_tables, charge_generated] at hrow ⊢
  rw [hrow, rowBill, rowBill]
  split_ifs <;> abel

theorem unbilled_remove {key : RowKey} {obj : ContractRow} {t : TableIdObject}
    (hobj : db.rows.lookup key = some obj) (htab : db.tables.lookup key.tId = some t) :
    unbilled env { db.charge obj.payer (-key.billableSize obj) with
      tables := db.tables.insert key.tId { t with count := t.count - 1 },
      rows := db.rows.erase key } a = unbilled env db a := by
  have hrow := (AList.shift_erase (v := rowBill a) (t := db.rows) (a := key)
    (d := -rowBill a key obj) (by rw [hobj]; simp)).sum
  simp only [unbilled, billedRam, charge_ramUsage, charge_generated] at hrow ⊢
  rw [hrow, sum_insert_of_bill_eq (b := { t with count := t.count - 1 }) htab rfl, rowBill]
  split_ifs <;> abel

theorem unbilled_removeLast {key : RowKey} {obj : ContractRow} {t : TableIdObject}
    (hobj : db.rows.lookup key = some obj) (htab : db.tables.lookup key.tId = some t) :
    unbilled env { (db.charge obj.payer (-key.billableSize obj)).charge t.payer
        (-tableBillableSize) with
      tables := (db.tables.insert key.tId { t with count := t.count - 1 }).erase key.tId,
      rows := db.rows.erase key } a = unbilled env db a := by
  have hrow := (AList.shift_erase (v := rowBill a) (t := db.rows) (a := key)
    (d := -rowBill a key obj) (by rw [hobj]; simp)).sum
  -- the table's row goes with it: what its count did in between does not matter
  have htable : Shift (tableBill a) db.tables
      ((db.tables.insert key.tId { t with count := t.count - 1 }).erase key.tId) key.tId
      (-tableBill a key.tId t) :=
    ⟨fun k hk => by rw [AList.lookup_erase_ne hk, AList.lookup_insert_ne hk],
      by rw [AList.lookup_erase, htab]; simp⟩
  simp only [unbilled, billedRam, charge_ramUsage, charge_generated] at hrow ⊢
  rw [hrow, htable.sum, rowBill, tableBill]
  split_ifs <;> abel

theorem unbilled_create {k : Name × Nat} {g : GeneratedTransactionObject}
    (hnone : db.generated.lookup k = none) :
    unbilled env ({ db with generated := db.generated.insert k g }.charge g.payer
      (generatedTransactionBillableSize + env.packSize g.packedTrx)) a = unbilled env db a := by
  have hgen := (AList.shift_insert (v := generatedBill env a) (t := db.generated) (a := k) (b := g)
    (d := generatedBill env a k g) (by rw [hnone]; simp)).sum
  rw [unbilled_charge]
  simp only [unbilled, billedRam] at hgen ⊢
  rw [hgen, generatedBill]
  split_ifs <;> abel

/-- A replacement bills the new transaction and leaves the old one on its payer's ledger. -/
theorem unbilled_replace {k : Name × Nat} {gtx g : GeneratedTransactionObject}
    (hold : db.generated.lookup k = some gtx) :
    unbilled env ({ db with generated := db.generated.insert k g }.charge g.payer
      (generatedTransactionBillableSize + env.packSize g.packedTrx)) a =
      unbilled env db a + generatedBill env a k gtx := by
  have hgen := (AList.shift_insert (v := generatedBill env a) (t := db.generated) (a := k) (b := g)
    (d := generatedBill env a k g - generatedBill env a k gtx) (by rw [hold]; simp)).sum
  rw [unbilled_charge]
  simp only [unbilled, billedRam] at hgen ⊢
  rw [hgen, generatedBill]
  split_ifs <;> abel

theorem unbilled_cancel {k : Name × Nat} {g : GeneratedTransactionObject}
    (hg : db.generated.lookup k = some g) :
    unbilled env ({ db with generated := db.generated.erase k }.charge g.payer
      (-(generatedTransactionBillableSize + env.packSize g.packedTrx))) a = unbilled env db a := by
  have hgen := (AList.shift_erase (v := generatedBill env a) (t := db.generated) (a := k)
    (d := -generatedBill env a k g) (by rw [hg]; simp)).sum
  rw [unbilled_charge]
  simp only [unbilled, billedRam] at hgen ⊢
  rw [hgen, generatedBill]
  split_ifs <;> abel

/-- Every completed operation that replaces nothing bills exactly what it stores. -/
theorem unbilled_effect (hids : IdsBelow db) (he : Effect env ctx db false db') :
    unbilled env db' a = unbilled env db a := by
  cases he with
  | store htab _ hfresh => exact unbilled_store hids htab hfresh
  | update hobj => exact unbilled_update hobj
  | remove hobj htab => exact unbilled_remove hobj htab
  | removeLast hobj htab => exact unbilled_removeLast hobj htab
  | create hnone => exact unbilled_create hnone
  | cancel hg => exact unbilled_cancel hg
  | retire hg => exact unbilled_cancel hg
  | unchanged => rfl

theorem unbilled_step (env : Env) (s : Database) :
    Transition.PreservesUnder (fun _ (r : Request) => r.op.replaceExisting = false)
      (fun db => IdsBelow db ∧ ∀ a, unbilled env db a = unbilled env s a) (step env) := by
  rintro db r db' hrep ⟨hids, hu⟩ h
  have he := step_effect h
  rw [hrep] at he
  exact ⟨hids.effect he, fun a => (unbilled_effect hids he).trans (hu a)⟩

/-- Over every run of requests none of which may replace a deferred transaction, from any
database whose table ids are below `nextTableId`, each account's RAM ledger moves by exactly the
change in the bytes billed to it. -/
theorem billing_exact (env : Env) (s : Database) (hs : IdsBelow s) (reqs : List Request)
    (hrep : ∀ r ∈ reqs, r.op.replaceExisting = false) (a : Name) :
    (Transition.run (step env) s reqs).ramUsage a - s.ramUsage a =
      billedRam env (Transition.run (step env) s reqs) a - billedRam env s a := by
  have := ((unbilled_step env s).run ⟨hs, fun _ => rfl⟩ (Transition.guarded_of_forall hrep)).2 a
  simp only [unbilled] at this
  omega

theorem billing_exact_stores :
    IdsBelow init ∧ (∀ r ∈ storeRequests 2, r.op.replaceExisting = false) ∧
      (Transition.run (step zeroEnv) init (storeRequests 2)).ramUsage Config.systemAccountName -
          init.ramUsage Config.systemAccountName =
        billedRam zeroEnv (Transition.run (step zeroEnv) init (storeRequests 2))
          Config.systemAccountName - billedRam zeroEnv init Config.systemAccountName := by
  have hrep : ∀ r ∈ storeRequests 2, r.op.replaceExisting = false := by
    simp [storeRequests, storeRequest, Op.replaceExisting]
  exact ⟨IdsBelow.init, hrep,
    billing_exact zeroEnv init IdsBelow.init (storeRequests 2) hrep Config.systemAccountName⟩

/-- `a` schedules `t₁` for itself under `sender_id` 1, then replaces it with `t₂`. -/
def replaceRequests (a : Name) (t₁ t₂ : Transaction) : List Request :=
  [⟨selfContext a, .scheduleDeferredTransaction 1 a t₁ true⟩,
    ⟨selfContext a, .scheduleDeferredTransaction 1 a t₂ true⟩]

/-- What `a`'s two schedules leave: the first creates `g₁`, of `t₁`, under `(a, 1)`; the second
rewrites it in place to `g₂`, of `t₂` but under the id of `t₁`. -/
theorem after_replaceRequests (env : Env) (a : Name) (t₁ t₂ : Transaction)
    (h₁ : t₁.contextFreeActions = []) (h₂ : t₂.contextFreeActions = [])
    (hsize : env.packSize ((selfContext a).prepareDeferred t₁) +
      env.packSize ((selfContext a).prepareDeferred t₂) ≤ 2 ^ 62) :
    ∃ g₁ g₂ : GeneratedTransactionObject,
      g₁.payer = a ∧ g₁.packedTrx = (selfContext a).prepareDeferred t₁ ∧
      g₁.trxId = env.trxId ((selfContext a).prepareDeferred t₁) ∧
      g₂.payer = a ∧ g₂.packedTrx = (selfContext a).prepareDeferred t₂ ∧ g₂.trxId = g₁.trxId ∧
      g₂.delayUntil = t₂.delaySec * 1000000 ∧
      after env (replaceRequests a t₁ t₂) =
        { { init with generated := init.generated.insert (a, 1) g₁ }.charge a
            (generatedTransactionBillableSize + env.packSize g₁.packedTrx) with
          generated := (init.generated.insert (a, 1) g₁).insert (a, 1) g₂ }.charge a
          (generatedTransactionBillableSize + env.packSize g₂.packedTrx) := by
  have hbill : (generatedTransactionBillableSize : Int) = 272 := rfl
  obtain ⟨g₁, hstep₁, hid₁, hpayer₁, hpacked₁⟩ :=
    @scheduleDeferredTransaction_of_lookup_none (selfContext a) env init 1 a t₁ true h₁ rfl rfl
      (by simp [Database.init]) (by simp [Database.init]; omega)
  set db₁ := ({ init with generated := init.generated.insert (a, 1) g₁ }.charge a
    (generatedTransactionBillableSize + env.packSize g₁.packedTrx)) with hdb₁
  obtain ⟨g₂, hstep₂, hid₂, hpayer₂, hpacked₂, hdelay₂⟩ :=
    @scheduleDeferredTransaction_of_lookup (selfContext a) env db₁ 1 a t₂ g₁ h₂ rfl rfl
      (AList.lookup_insert _) (by simp [hdb₁, charge_ramUsage, Database.init, hpacked₁]; omega)
  refine ⟨g₁, g₂, hpayer₁, hpacked₁, hid₁, hpayer₂, hpacked₂, hid₂, by simpa using hdelay₂, ?_⟩
  have e₁ : step env init ⟨selfContext a, .scheduleDeferredTransaction 1 a t₁ true⟩ = .ok db₁ :=
    hstep₁
  have e₂ : step env db₁ ⟨selfContext a, .scheduleDeferredTransaction 1 a t₂ true⟩ = .ok _ :=
    hstep₂
  simp only [after, replaceRequests, Transition.run_cons, Transition.run_nil,
    Transition.commit_of_ok e₁, Transition.commit_of_ok e₂, selfContext_receiver]
  rfl

/-- The replacement leaves `a`'s ledger above the bytes billed to it by the whole replaced
transaction. -/
theorem replace_overbills (env : Env) (a : Name) (t₁ t₂ : Transaction)
    (h₁ : t₁.contextFreeActions = []) (h₂ : t₂.contextFreeActions = [])
    (hsize : env.packSize ((selfContext a).prepareDeferred t₁) +
      env.packSize ((selfContext a).prepareDeferred t₂) ≤ 2 ^ 62) :
    (after env (replaceRequests a t₁ t₂)).ramUsage a - init.ramUsage a =
      billedRam env (after env (replaceRequests a t₁ t₂)) a - billedRam env init a +
        (generatedTransactionBillableSize + env.packSize ((selfContext a).prepareDeferred t₁)) := by
  obtain ⟨g₁, g₂, hpayer₁, hpacked₁, -, hpayer₂, -, -, -, hrun⟩ :=
    after_replaceRequests env a t₁ t₂ h₁ h₂ hsize
  set db₁ := ({ init with generated := init.generated.insert (a, 1) g₁ }.charge a
    (generatedTransactionBillableSize + env.packSize g₁.packedTrx)) with hdb₁
  have hu₁ : unbilled env db₁ a = 0 := by
    rw [hdb₁, ← hpayer₁, unbilled_create rfl]
    simp [unbilled, billedRam, Database.init]
  -- the replaced transaction stays on `a`'s ledger
  have hu₂ : unbilled env (after env (replaceRequests a t₁ t₂)) a =
      unbilled env db₁ a + generatedBill env a (a, 1) g₁ := by
    have hold : db₁.generated.lookup (a, 1) = some g₁ := AList.lookup_insert _
    have := @unbilled_replace env db₁ a (a, 1) g₁ g₂ hold
    rw [hpayer₂] at this
    rw [hrun, ← this]
    rfl
  rw [hu₁, generatedBill, if_pos hpayer₁.symm, hpacked₁] at hu₂
  have h₀ : init.ramUsage a = 0 ∧ billedRam env init a = 0 := by
    simp [billedRam, Database.init]
  simp only [unbilled] at hu₂
  omega

/-- A transaction with no action. -/
def emptyTransaction : Transaction := ⟨0, 0, 0, [], []⟩

theorem replace_overbills_empty :
    emptyTransaction.contextFreeActions = [] ∧
      zeroEnv.packSize ((selfContext Config.systemAccountName).prepareDeferred emptyTransaction) +
        zeroEnv.packSize ((selfContext Config.systemAccountName).prepareDeferred emptyTransaction) ≤
          2 ^ 62 ∧
      (after zeroEnv (replaceRequests Config.systemAccountName emptyTransaction emptyTransaction)).ramUsage
          Config.systemAccountName - init.ramUsage Config.systemAccountName =
        billedRam zeroEnv (after zeroEnv (replaceRequests Config.systemAccountName emptyTransaction
            emptyTransaction)) Config.systemAccountName -
          billedRam zeroEnv init Config.systemAccountName +
          (generatedTransactionBillableSize + zeroEnv.packSize
            ((selfContext Config.systemAccountName).prepareDeferred emptyTransaction)) :=
  ⟨rfl, by simp [zeroEnv], replace_overbills zeroEnv Config.systemAccountName emptyTransaction
    emptyTransaction rfl rfl (by simp [zeroEnv])⟩

end Database
end Safeos
