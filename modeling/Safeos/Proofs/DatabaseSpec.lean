import Safeos.Chain.ApplyContext
import Safeos.Lib.Table

/-!
# What one database operation does

`step_effect` says once what a completed operation of `Chain/ApplyContext.lean` can have done
to the database: stored a fresh row, rewritten a row, erased a row (and its table with the last
one), created, replaced, cancelled or retired a deferred transaction, or nothing. Every change
comes with the charge `add_pending_ram_usage` made for it. The invariants of
`Proofs/DatabaseInv.lean` are proved by cases on `Effect` and never unfold an operation.
-/

namespace Safeos

/-- Whether an operation may replace a deferred transaction: only a
`schedule_deferred_transaction` with `replace_existing` may. -/
def Op.replaceExisting : Op → Bool
  | .scheduleDeferredTransaction _ _ _ replaceExisting => replaceExisting
  | _ => false

namespace Database

/-- The RAM ledger with `d` more bytes billed to `account`. -/
def charge (db : Database) (account : Name) (d : Int) : Database :=
  { db with ramUsage := Function.update db.ramUsage account (db.ramUsage account + d) }

section Charge

variable (db : Database) (a : Name) (d : Int)

@[simp] theorem charge_tables : (db.charge a d).tables = db.tables := rfl
@[simp] theorem charge_rows : (db.charge a d).rows = db.rows := rfl
@[simp] theorem charge_generated : (db.charge a d).generated = db.generated := rfl
@[simp] theorem charge_nextTableId : (db.charge a d).nextTableId = db.nextTableId := rfl
@[simp] theorem charge_retired : (db.charge a d).retired = db.retired := rfl

theorem charge_ramUsage (b : Name) :
    (db.charge a d).ramUsage b = db.ramUsage b + if b = a then d else 0 := by
  by_cases hb : b = a
  · subst hb; simp [charge]
  · simp [charge, hb]

theorem charge_zero : db.charge a 0 = db := by
  simp [charge]

theorem charge_charge (e : Int) : (db.charge a d).charge a e = db.charge a (d + e) := by
  simp [charge, add_assoc]

end Charge

variable {ctx : ActionContext} {env : Env} {db db' : Database} {rep : Bool}

theorem addPendingRamUsage_eq_ok {a : Name} {d : Int} (h : db.addPendingRamUsage a d = .ok db') :
    db' = db.charge a d := by
  unfold addPendingRamUsage at h
  split_ifs at h with hd
  · subst hd
    simp only [Except.pure_eq_ok] at h
    rw [← h, charge_zero]
  · simp only [Except.bind_eq_ok, eosioAssert_eq_ok, Except.pure_eq_ok] at h
    obtain ⟨_, _, _, _, rfl⟩ := h
    rfl

/-- A charge within `uint64_t` goes through. -/
theorem addPendingRamUsage_of_le {a : Name} {d : Int} (hd : 0 ≤ d)
    (hb : db.ramUsage a + d ≤ 2 ^ 64 - 1) : db.addPendingRamUsage a d = .ok (db.charge a d) := by
  unfold addPendingRamUsage
  split_ifs with h0
  · subst h0; rw [charge_zero]; rfl
  · have hle : d ≤ 18446744073709551615 - db.ramUsage a := by omega
    simp [eosioAssert, hle, hd, charge]

/-- A refund within what `a` is billed goes through. -/
theorem addPendingRamUsage_of_neg {a : Name} {d : Int} (hd : d ≤ 0) (hb : 0 ≤ db.ramUsage a + d) :
    db.addPendingRamUsage a d = .ok (db.charge a d) := by
  unfold addPendingRamUsage
  split_ifs with h0
  · subst h0; rw [charge_zero]; rfl
  · have hle : -d ≤ db.ramUsage a := by omega
    simp [eosioAssert, hle, hd, charge]

theorem updateDbUsage_eq_ok {payer : Name} {d : Int} (h : db.updateDbUsage ctx payer d = .ok db') :
    db' = db.charge payer d := by
  unfold updateDbUsage at h
  split_ifs at h
  · simp only [Except.bind_eq_ok] at h
    obtain ⟨_, _, _, _, h⟩ := h
    exact addPendingRamUsage_eq_ok h
  all_goals exact addPendingRamUsage_eq_ok h

theorem findTable_lookup {code scope table : Name} {tid : Nat} {t : TableIdObject}
    (h : db.findTable code scope table = some (tid, t)) : db.tables.lookup tid = some t := by
  unfold findTable at h
  obtain ⟨e, he, hte⟩ := Option.map_eq_some_iff.1 h
  obtain ⟨rfl, rfl⟩ := Prod.mk.inj hte
  exact AList.mem_lookup_iff.2 (List.mem_of_find?_eq_some he)

/-- A table is found, or created under the next id, billed to `payer` and counting no row. -/
theorem findOrCreateTable_eq_ok {code scope table payer : Name} {tid : Nat} {t : TableIdObject}
    (h : db.findOrCreateTable ctx code scope table payer = .ok (db', tid, t)) :
    (db.tables.lookup tid = some t ∧ db' = db) ∨
    (tid = db.nextTableId ∧ t = ⟨code, scope, table, payer, 0⟩ ∧
      db' = { db.charge payer tableBillableSize with
        tables := db.tables.insert tid t, nextTableId := tid + 1 }) := by
  unfold findOrCreateTable at h
  split at h
  · rename_i tid' t' hf
    simp only [Except.pure_eq_ok, Prod.mk.injEq] at h
    obtain ⟨rfl, rfl, rfl⟩ := h
    exact .inl ⟨findTable_lookup hf, rfl⟩
  · simp only [Except.bind_eq_ok, Except.pure_eq_ok, Prod.mk.injEq] at h
    obtain ⟨db₁, h₁, rfl, rfl, rfl⟩ := h
    obtain rfl := updateDbUsage_eq_ok h₁
    exact .inr ⟨rfl, rfl, rfl⟩

/-- `eraseRow`: the count goes down, the row goes, and a table left at zero goes too. -/
theorem eraseRow_eq_ok {key : RowKey} {tableObj : TableIdObject}
    (h : db.eraseRow ctx key tableObj = .ok db') :
    (tableObj.count - 1 ≠ 0 ∧ db' = { db with
      tables := db.tables.insert key.tId { tableObj with count := tableObj.count - 1 },
      rows := db.rows.erase key }) ∨
    (tableObj.count - 1 = 0 ∧ db' = { db.charge tableObj.payer (-tableBillableSize) with
      tables := (db.tables.insert key.tId { tableObj with count := tableObj.count - 1 }).erase key.tId,
      rows := db.rows.erase key }) := by
  unfold eraseRow at h
  dsimp only at h
  split at h
  · rename_i hz
    refine .inr ⟨by simpa using hz, ?_⟩
    unfold removeTable at h
    simp only [Except.bind_eq_ok, Except.pure_eq_ok] at h
    obtain ⟨db₁, h₁, rfl⟩ := h
    obtain rfl := updateDbUsage_eq_ok h₁
    rfl
  · rename_i hz
    simp only [Except.pure_eq_ok] at h
    exact .inl ⟨by simpa using hz, h.symm⟩

theorem getRow_eq_ok {key : RowKey} {r : ContractRow} (h : db.getRow key = .ok r) :
    db.rows.lookup key = some r := by
  unfold getRow at h
  split at h <;> simp_all [Except.pure_eq_ok]

theorem getTable_eq_ok {tid : Nat} {t : TableIdObject} (h : db.getTable tid = .ok t) :
    db.tables.lookup tid = some t := by
  unfold getTable at h
  split at h <;> simp_all [Except.pure_eq_ok]

/-- What a completed operation did to the database, in the context `ctx` of its action; only an
operation that asks to `replace` an existing deferred transaction may have done so. -/
inductive Effect (env : Env) (ctx : ActionContext) (db : Database) : Bool → Database → Prop
  /-- A fresh row in table `tid`, found or created counting no row, whose count goes up; the
  payer of the row is charged for it, and the payer of a new table for the table. -/
  | store {rep : Bool} {db₁ : Database} {tid : Nat} {t : TableIdObject} {key : RowKey} {r : ContractRow}
      (htab : (db.tables.lookup tid = some t ∧ db₁ = db) ∨
        (tid = db.nextTableId ∧ t.count = 0 ∧ db₁ = { db.charge t.payer tableBillableSize with
          tables := db.tables.insert tid t, nextTableId := tid + 1 }))
      (hkey : key.tId = tid) (hfresh : db₁.rows.lookup key = none) :
      Effect env ctx db rep ({ db₁ with
          rows := db₁.rows.insert key r
          tables := db₁.tables.insert tid { t with count := t.count + 1 } }.charge r.payer
        (key.billableSize r))
  /-- A row rewritten: its old payer refunded its old size, its new payer charged the new. -/
  | update {rep : Bool} {key : RowKey} {obj r : ContractRow} (hobj : db.rows.lookup key = some obj)
      (htab : db.tables.lookup key.tId ≠ none) :
      Effect env ctx db rep { (db.charge obj.payer (-key.billableSize obj)).charge r.payer
        (key.billableSize r) with rows := db.rows.insert key r }
  /-- A row erased, refunded, and its table's count lowered. -/
  | remove {rep : Bool} {key : RowKey} {obj : ContractRow} {t : TableIdObject}
      (hobj : db.rows.lookup key = some obj) (htab : db.tables.lookup key.tId = some t)
      (hcount : t.count - 1 ≠ 0) :
      Effect env ctx db rep { db.charge obj.payer (-key.billableSize obj) with
        tables := db.tables.insert key.tId { t with count := t.count - 1 },
        rows := db.rows.erase key }
  /-- The last row of a table erased, and the table with it; both are refunded. -/
  | removeLast {rep : Bool} {key : RowKey} {obj : ContractRow} {t : TableIdObject}
      (hobj : db.rows.lookup key = some obj) (htab : db.tables.lookup key.tId = some t)
      (hcount : t.count - 1 = 0) :
      Effect env ctx db rep { (db.charge obj.payer (-key.billableSize obj)).charge t.payer
          (-tableBillableSize) with
        tables := (db.tables.insert key.tId { t with count := t.count - 1 }).erase key.tId,
        rows := db.rows.erase key }
  /-- A new deferred transaction under its `by_sender_id` key, its id that of its contents,
  charged to its payer. -/
  | create {rep : Bool} {k : Name × Nat} {g : GeneratedTransactionObject}
      (hnone : db.generated.lookup k = none) (hk : k = (g.sender, g.senderId))
      (huniq : ∀ e ∈ db.generated.entries, e.2.trxId ≠ g.trxId)
      (hid : g.trxId = env.trxId g.packedTrx)
      (hsender : g.sender = ctx.receiver ∨
        (g.sender = default ∧ g.senderId = transactionIdToSenderId g.trxId))
      (hdelay : g.delayUntil = g.published + g.packedTrx.delaySec * 1000000)
      (hexpiration : g.expiration = g.delayUntil + env.deferredTrxExpirationWindow * 1000000) :
      Effect env ctx db rep ({ db with generated := db.generated.insert k g }.charge g.payer
        (generatedTransactionBillableSize + env.packSize g.packedTrx))
  /-- A deferred transaction of the receiver rewritten in place: it keeps its `trx_id`, and only
  the new payer is charged. -/
  | replace {k : Name × Nat} {gtx g : GeneratedTransactionObject}
      (hold : db.generated.lookup k = some gtx) (hk : k = (g.sender, g.senderId))
      (hsender : g.sender = ctx.receiver) (hid : g.trxId = gtx.trxId) :
      Effect env ctx db true ({ db with generated := db.generated.insert k g }.charge g.payer
        (generatedTransactionBillableSize + env.packSize g.packedTrx))
  /-- A deferred transaction cancelled and refunded. -/
  | cancel {rep : Bool} {k : Name × Nat} {g : GeneratedTransactionObject} (hg : db.generated.lookup k = some g) :
      Effect env ctx db rep ({ db with generated := db.generated.erase k }.charge g.payer
        (-(generatedTransactionBillableSize + env.packSize g.packedTrx)))
  /-- A deferred transaction retired by the controller, refunded, and its receipt recorded
  under its stored id. -/
  | retire {rep : Bool} {k : Name × Nat} {g : GeneratedTransactionObject} (hg : db.generated.lookup k = some g) :
      Effect env ctx db rep { { db with generated := db.generated.erase k }.charge g.payer
          (-(generatedTransactionBillableSize + env.packSize g.packedTrx)) with
        retired := db.retired ++ [(g.trxId, g.packedTrx)] }
  | unchanged {rep : Bool} : Effect env ctx db rep db

/-- The billable size of a primary row is its value and its kind's overhead. -/
theorem billableSize_of_primary {key : RowKey} (r : ContractRow)
    (hk : key.kind = .keyValue ∨ key.kind = .key256Value) :
    key.billableSize r = r.value.length + key.kind.billableSize := by
  unfold RowKey.billableSize
  rcases hk with hk | hk <;> rw [hk]

/-- The table a store goes to, as `Effect.store` describes it. -/
theorem store_table {code scope table payer : Name} {db₁ : Database} {tid : Nat} {t : TableIdObject}
    (h : db.findOrCreateTable ctx code scope table payer = .ok (db₁, tid, t)) :
    (db.tables.lookup tid = some t ∧ db₁ = db) ∨
    (tid = db.nextTableId ∧ t.count = 0 ∧ db₁ = { db.charge t.payer tableBillableSize with
      tables := db.tables.insert tid t, nextTableId := tid + 1 }) := by
  rcases findOrCreateTable_eq_ok h with h | ⟨rfl, rfl, rfl⟩
  · exact .inl h
  · exact .inr ⟨rfl, rfl, rfl⟩

theorem storePrimary_effect {kind : RowKind} {code scope table payer : Name} {id : Nat}
    {value : List UInt8} (hk : kind = .keyValue ∨ kind = .key256Value)
    (h : db.storePrimary ctx kind code scope table payer id value = .ok db') :
    Effect env ctx db rep db' := by
  unfold storePrimary at h
  simp only [Except.bind_eq_ok, eosioAssert_eq_ok, Option.isNone_iff_eq_none] at h
  obtain ⟨⟨db₁, tid, t⟩, hfind, _, _, _, hfresh, hcharge⟩ := h
  dsimp only at hfresh hcharge
  obtain rfl := updateDbUsage_eq_ok hcharge
  have hsize := @billableSize_of_primary ⟨kind, tid, id⟩ ⟨payer, value⟩ hk
  have := @Effect.store env ctx db rep db₁ tid t ⟨kind, tid, id⟩ ⟨payer, value⟩
    (store_table hfind) rfl hfresh
  rw [hsize] at this
  exact_mod_cast this

/-- A refund followed by a charge. -/
theorem updateDbUsage_twice_eq_ok {p p' : Name} {d e : Int} {db₁ : Database}
    (h : (do
      let db ← db.updateDbUsage ctx p d
      db.updateDbUsage ctx p' e) = .ok db₁) :
    db₁ = (db.charge p d).charge p' e := by
  simp only [Except.bind_eq_ok] at h
  obtain ⟨db₂, h₂, h₁⟩ := h
  rw [updateDbUsage_eq_ok h₁, updateDbUsage_eq_ok h₂]

/-- Refunding and recharging one payer the same amount is no charge. -/
theorem charge_neg_charge (p : Name) (d : Int) : (db.charge p (-d)).charge p d = db := by
  rw [charge_charge, neg_add_cancel, charge_zero]

/-- The billing of a rewritten row, in its three branches (new payer, new size, no change), is
a refund of the old size to the old payer and a charge of the new size to the new one. -/
theorem rebill_eq {p p' : Name} {old new : Int} {db₁ : Database}
    (h : (if (p != p') = true then do
          let db ← db.updateDbUsage ctx p (-old)
          db.updateDbUsage ctx p' new
        else if (old != new) = true then db.updateDbUsage ctx p (new - old) else pure db) = .ok db₁) :
    db₁ = (db.charge p (-old)).charge p' new := by
  split_ifs at h with hp hs
  · exact updateDbUsage_twice_eq_ok h
  · have hp' : p = p' := by simpa using hp
    subst hp'
    rw [updateDbUsage_eq_ok h, charge_charge, neg_add_eq_sub]
  · have hp' : p = p' := by simpa using hp
    have hs' : old = new := by simpa using hs
    subst hp' hs'
    simp only [Except.pure_eq_ok] at h
    rw [← h, charge_neg_charge]

/-- The billing of a secondary row whose payer may change: its size does not. -/
theorem rebillPayer_eq {p p' : Name} {size : Int} {db₁ : Database}
    (h : (if (p != p') = true then do
          let db ← db.updateDbUsage ctx p (-size)
          db.updateDbUsage ctx p' size
        else pure db) = .ok db₁) :
    db₁ = (db.charge p (-size)).charge p' size := by
  split_ifs at h with hp
  · exact updateDbUsage_twice_eq_ok h
  · have hp' : p = p' := by simpa using hp
    subst hp'
    simp only [Except.pure_eq_ok] at h
    rw [← h, charge_neg_charge]

theorem updatePrimary_effect {key : RowKey} {payer : Name} {value : List UInt8} {checkCode : Bool}
    (hk : key.kind = .keyValue ∨ key.kind = .key256Value)
    (h : db.updatePrimary ctx key payer value checkCode = .ok db') : Effect env ctx db rep db' := by
  unfold updatePrimary at h
  simp only [Except.bind_eq_ok, Except.pure_eq_ok] at h
  obtain ⟨obj, hobj, tableObj, htab, _, _, db₁, hbill, rfl⟩ := h
  obtain rfl := rebill_eq hbill
  -- the payer the row ends with: the old one where the contract passed none
  set payer' := if (payer == default) = true then obj.payer else payer
  have hsize (r : ContractRow) : (key.billableSize r : Int) = r.value.length + key.kind.billableSize := by
    rw [billableSize_of_primary r hk, Nat.cast_add]
  have := @Effect.update env ctx db rep key obj ⟨payer', value⟩ (getRow_eq_ok hobj)
    (by simp [getTable_eq_ok htab])
  rw [hsize, hsize] at this
  exact this

/-- The end of both removes: the row's refund, then `eraseRow`. -/
theorem remove_of_eraseRow {key : RowKey} {obj : ContractRow} {t : TableIdObject}
    (hobj : db.rows.lookup key = some obj) (htab : db.tables.lookup key.tId = some t)
    (h : (db.charge obj.payer (-key.billableSize obj)).eraseRow ctx key t = .ok db') :
    Effect env ctx db rep db' := by
  rcases eraseRow_eq_ok h with ⟨hcount, rfl⟩ | ⟨hcount, rfl⟩
  · exact .remove hobj htab hcount
  · exact .removeLast hobj htab hcount

theorem removePrimary_effect {key : RowKey} {checkCode : Bool}
    (hk : key.kind = .keyValue ∨ key.kind = .key256Value)
    (h : db.removePrimary ctx key checkCode = .ok db') : Effect env ctx db rep db' := by
  unfold removePrimary at h
  simp only [Except.bind_eq_ok] at h
  obtain ⟨obj, hobj, tableObj, htab, _, _, db₁, hcharge, h⟩ := h
  obtain rfl := updateDbUsage_eq_ok hcharge
  refine remove_of_eraseRow (getRow_eq_ok hobj) (getTable_eq_ok htab) ?_
  rwa [billableSize_of_primary obj hk, Nat.cast_add]

theorem genericStore_effect {idx : SecondaryIndex} {scope table payer : Name} {id : Nat}
    (h : db.genericStore ctx idx scope table payer id = .ok db') : Effect env ctx db rep db' := by
  unfold genericStore at h
  simp only [Except.bind_eq_ok, eosioAssert_eq_ok, Option.isNone_iff_eq_none] at h
  obtain ⟨_, _, ⟨db₁, tid, t⟩, hfind, _, hfresh, hcharge⟩ := h
  dsimp only at hfresh hcharge
  obtain rfl := updateDbUsage_eq_ok hcharge
  exact @Effect.store env ctx db rep db₁ tid t ⟨.secondary idx, tid, id⟩ ⟨payer, []⟩
    (store_table hfind) rfl hfresh

theorem genericUpdate_effect {idx : SecondaryIndex} {tId primaryKey : Nat} {payer : Name}
    (h : db.genericUpdate ctx idx tId primaryKey payer = .ok db') : Effect env ctx db rep db' := by
  unfold genericUpdate at h
  simp only [Except.bind_eq_ok, Except.pure_eq_ok] at h
  obtain ⟨obj, hobj, tableObj, htab, _, _, db₁, hbill, rfl⟩ := h
  obtain rfl := rebillPayer_eq hbill
  exact Effect.update (getRow_eq_ok hobj) (by simp [getTable_eq_ok htab])

theorem genericRemove_effect {idx : SecondaryIndex} {tId primaryKey : Nat}
    (h : db.genericRemove ctx idx tId primaryKey = .ok db') : Effect env ctx db rep db' := by
  unfold genericRemove at h
  simp only [Except.bind_eq_ok] at h
  obtain ⟨obj, hobj, db₁, hcharge, tableObj, htab, _, _, h⟩ := h
  obtain rfl := updateDbUsage_eq_ok hcharge
  exact remove_of_eraseRow (getRow_eq_ok hobj) (getTable_eq_ok htab) h

theorem scheduleDeferredTransaction_effect {senderId : Nat} {payer : Name} {trx : Transaction}
    {replaceExisting : Bool}
    (h : db.scheduleDeferredTransaction ctx env senderId payer trx replaceExisting = .ok db') :
    Effect env ctx db replaceExisting db' := by
  unfold scheduleDeferredTransaction at h
  simp only [Except.bind_eq_ok, eosioAssert_eq_ok] at h
  obtain ⟨_, _, _, _, generated, hgen, _, _, hcharge⟩ := h
  obtain rfl := addPendingRamUsage_eq_ok hcharge
  -- the sender's `sender_id` is taken (replace) or free (create)
  split at hgen
  · rename_i gtx hold
    simp only [Except.bind_eq_ok, eosioAssert_eq_ok, Except.pure_eq_ok] at hgen
    obtain ⟨_, hrep, _, _, rfl⟩ := hgen
    rw [hrep]
    exact Effect.replace hold rfl rfl rfl
  · rename_i hnone
    simp only [Except.bind_eq_ok, eosioAssert_eq_ok, Except.pure_eq_ok, List.all_eq_true,
      bne_iff_ne, ne_eq] at hgen
    obtain ⟨_, huniq, rfl⟩ := hgen
    exact Effect.create hnone rfl huniq rfl (.inl rfl) rfl rfl

theorem cancelDeferredTransaction_effect {senderId : Nat} {sender : Name} {found : Bool}
    (h : db.cancelDeferredTransaction env senderId sender = .ok (db', found)) :
    Effect env ctx db rep db' := by
  unfold cancelDeferredTransaction at h
  split at h
  · rename_i g hg
    simp only [Except.bind_eq_ok, Except.pure_eq_ok, Prod.mk.injEq] at h
    obtain ⟨db₁, hcharge, rfl, -⟩ := h
    obtain rfl := addPendingRamUsage_eq_ok hcharge
    exact Effect.cancel hg
  · simp only [Except.pure_eq_ok, Prod.mk.injEq] at h
    obtain ⟨rfl, -⟩ := h
    exact .unchanged

theorem scheduleTransaction_effect {trx : Transaction}
    (h : db.scheduleTransaction ctx env trx = .ok db') : Effect env ctx db rep db' := by
  unfold scheduleTransaction at h
  simp only [Except.bind_eq_ok, eosioAssert_eq_ok, Bool.and_eq_true, Option.isNone_iff_eq_none,
    List.all_eq_true, bne_iff_ne, ne_eq] at h
  obtain ⟨_, ⟨hnone, huniq⟩, hcharge⟩ := h
  obtain rfl := addPendingRamUsage_eq_ok hcharge
  exact Effect.create hnone rfl huniq rfl (.inr ⟨rfl, rfl⟩) rfl rfl

theorem pushScheduledTransaction_effect {trxId : Nat}
    (h : db.pushScheduledTransaction ctx env trxId = .ok db') : Effect env ctx db rep db' := by
  unfold pushScheduledTransaction at h
  split at h
  · rename_i e he
    simp only [Except.bind_eq_ok, eosioAssert_eq_ok, Except.pure_eq_ok] at h
    obtain ⟨db₁, hcharge, _, _, rfl⟩ := h
    obtain rfl := addPendingRamUsage_eq_ok hcharge
    exact Effect.retire (AList.mem_lookup_iff.2 (List.mem_of_find?_eq_some he))
  · simp at h

theorem canceldelay_effect {cancelingAuth : PermissionLevel} {trxId : Nat}
    (h : db.canceldelay ctx env cancelingAuth trxId = .ok db') : Effect env ctx db rep db' := by
  unfold canceldelay at h
  simp only [Except.bind_eq_ok, Except.pure_eq_ok] at h
  obtain ⟨_, _, ⟨db₁, found⟩, hcancel, rfl⟩ := h
  exact cancelDeferredTransaction_effect hcancel

/-- Every completed operation has one of the effects of `Effect`. -/
theorem step_effect {r : Request} (h : db.step env r = .ok db') :
    Effect env r.ctx db r.op.replaceExisting db' := by
  obtain ⟨ctx, op⟩ := r
  cases op with
  | dbStoreI64 => exact storePrimary_effect (.inl rfl) h
  | dbUpdateI64 => exact updatePrimary_effect (.inl rfl) h
  | dbRemoveI64 => exact removePrimary_effect (.inl rfl) h
  | dbStoreI256 => exact storePrimary_effect (.inr rfl) h
  | dbUpdateI256 => exact updatePrimary_effect (.inr rfl) h
  | dbRemoveI256 => exact removePrimary_effect (.inr rfl) h
  | idxStore => exact genericStore_effect h
  | idxUpdate => exact genericUpdate_effect h
  | idxRemove => exact genericRemove_effect h
  | scheduleDeferredTransaction => exact scheduleDeferredTransaction_effect h
  | cancelDeferredTransaction =>
    obtain ⟨⟨db₁, found⟩, hcancel, rfl⟩ := Except.map_eq_ok.1 h
    exact cancelDeferredTransaction_effect hcancel
  | scheduleTransaction => exact scheduleTransaction_effect h
  | pushScheduledTransaction => exact pushScheduledTransaction_effect h
  | canceldelay => exact canceldelay_effect h

/-- The database after `reqs` from the empty one, each request completing or rolled back. -/
def after (env : Env) (reqs : List Request) : Database :=
  Transition.run (step env) init reqs

/-! ## Completing operations

The converse of `step_effect`: an operation of the receiver, paying for itself, completes
when its checks hold, and these lemmas give the database it leaves: a store of a fresh row, a new
or a replacing schedule of a deferred transaction, and the retirement of a ready one. -/

/-- An action of `a` on its own contract, outside block production, with no authorization. -/
@[simps]
def selfContext (a : Name) : ActionContext where
  receiver := a
  actAccount := a
  authorization := []
  privileged := false
  ramBillingInNotifyAllowed := false
  skipAuthCheck := false
  producingBlock := false
  pendingBlockTime := 0
  headBlockId := 0

/-- The receiver pays for itself without further authorization. -/
theorem updateDbUsage_of_receiver {payer : Name} {d : Int} (hp : payer = ctx.receiver) (hd : 0 ≤ d)
    (hb : db.ramUsage payer + d ≤ 2 ^ 64 - 1) :
    db.updateDbUsage ctx payer d = .ok (db.charge payer d) := by
  simp [updateDbUsage, hp, ← addPendingRamUsage_of_le hd (hp ▸ hb)]

/-- A store into an existing table of a fresh row paid by the receiver. -/
theorem storePrimary_of_findTable {kind : RowKind} {code scope table payer : Name} {id tid : Nat}
    {t : TableIdObject} {value : List UInt8} (hp : payer = ctx.receiver) (hd : payer ≠ default)
    (hfind : db.findTable code scope table = some (tid, t))
    (hfresh : db.rows.lookup ⟨kind, tid, id⟩ = none)
    (hb : db.ramUsage payer + (value.length + kind.billableSize) ≤ 2 ^ 64 - 1) :
    db.storePrimary ctx kind code scope table payer id value =
      .ok ({ db with
        rows := db.rows.insert ⟨kind, tid, id⟩ ⟨payer, value⟩
        tables := db.tables.insert tid { t with count := t.count + 1 } }.charge payer
        (value.length + kind.billableSize)) := by
  simp only [storePrimary, findOrCreateTable, hfind, pure, Except.pure]
  simp [hd, hfresh, eosioAssert]
  exact updateDbUsage_of_receiver hp (by positivity) hb

/-- A store of a fresh row paid by the receiver into a table it creates. -/
theorem storePrimary_of_findTable_none {kind : RowKind} {code scope table payer : Name} {id : Nat}
    {value : List UInt8} (hp : payer = ctx.receiver) (hd : payer ≠ default)
    (hfind : db.findTable code scope table = none)
    (hfresh : db.rows.lookup ⟨kind, db.nextTableId, id⟩ = none)
    (hb : db.ramUsage payer + tableBillableSize + (value.length + kind.billableSize) ≤ 2 ^ 64 - 1) :
    db.storePrimary ctx kind code scope table payer id value =
      .ok ({ db.charge payer tableBillableSize with
        rows := db.rows.insert ⟨kind, db.nextTableId, id⟩ ⟨payer, value⟩
        tables := (db.tables.insert db.nextTableId (⟨code, scope, table, payer, 0⟩ : TableIdObject)).insert
          db.nextTableId (⟨code, scope, table, payer, 1⟩ : TableIdObject)
        nextTableId := db.nextTableId + 1 }.charge payer (value.length + kind.billableSize)) := by
  have hfc : db.findOrCreateTable ctx code scope table payer = .ok ({ db.charge payer tableBillableSize with
      tables := db.tables.insert db.nextTableId (⟨code, scope, table, payer, 0⟩ : TableIdObject)
      nextTableId := db.nextTableId + 1 }, db.nextTableId, ⟨code, scope, table, payer, 0⟩) := by
    have hcharge : db.updateDbUsage ctx payer tableBillableSize =
        .ok (db.charge payer tableBillableSize) :=
      updateDbUsage_of_receiver hp (by positivity) (by omega)
    simp [findOrCreateTable, hfind, hcharge]
  simp only [storePrimary, hfc]
  simp [hd, hfresh, eosioAssert]
  refine updateDbUsage_of_receiver hp (by positivity) ?_
  simp only [charge_ramUsage]
  omega

/-- Scheduling by the receiver, paying for itself, under a `sender_id` it has not used: a new
deferred transaction, with the id of its contents. -/
theorem scheduleDeferredTransaction_of_lookup_none {senderId : Nat} {payer : Name}
    {trx : Transaction} {replaceExisting : Bool} (hcfa : trx.contextFreeActions = [])
    (hp : payer = ctx.receiver) (hnone : db.generated.lookup (ctx.receiver, senderId) = none)
    (huniq : ∀ e ∈ db.generated.entries, e.2.trxId ≠ env.trxId (ctx.prepareDeferred trx))
    (hb : db.ramUsage payer + (generatedTransactionBillableSize +
      env.packSize (ctx.prepareDeferred trx)) ≤ 2 ^ 64 - 1) :
    ∃ g, db.scheduleDeferredTransaction ctx env senderId payer trx replaceExisting =
        .ok ({ db with generated := db.generated.insert (ctx.receiver, senderId) g }.charge payer
          (generatedTransactionBillableSize + env.packSize g.packedTrx)) ∧
      g.trxId = env.trxId (ctx.prepareDeferred trx) ∧ g.payer = payer ∧
      g.packedTrx = ctx.prepareDeferred trx := by
  subst hp
  let trx' := ctx.prepareDeferred trx
  let delayUntil := ctx.pendingBlockTime + trx'.delaySec * 1000000
  refine ⟨⟨env.trxId trx', ctx.receiver, senderId, ctx.receiver, delayUntil,
    delayUntil + env.deferredTrxExpirationWindow * 1000000, ctx.pendingBlockTime, trx'⟩,
    ?_, rfl, rfl, rfl⟩
  simp only [scheduleDeferredTransaction, hcfa, hnone]
  -- both sides read the delay off `trx`, so the kernel never unfolds `prepareDeferred`
  simp [eosioAssert, trx', delayUntil]
  exact ⟨⟨(), by rw [if_pos huniq]; rfl⟩, addPendingRamUsage_of_le (by positivity) hb⟩

/-- Replacing, outside block production, a deferred transaction of the receiver, which pays
for the new one: the object keeps its id and takes the new contents. -/
theorem scheduleDeferredTransaction_of_lookup {senderId : Nat} {payer : Name} {trx : Transaction}
    {gtx : GeneratedTransactionObject} (hcfa : trx.contextFreeActions = [])
    (hp : payer = ctx.receiver) (hprod : ctx.producingBlock = false)
    (hold : db.generated.lookup (ctx.receiver, senderId) = some gtx)
    (hb : db.ramUsage payer + (generatedTransactionBillableSize +
      env.packSize (ctx.prepareDeferred trx)) ≤ 2 ^ 64 - 1) :
    ∃ g, db.scheduleDeferredTransaction ctx env senderId payer trx true =
        .ok ({ db with generated := db.generated.insert (ctx.receiver, senderId) g }.charge payer
          (generatedTransactionBillableSize + env.packSize g.packedTrx)) ∧
      g.trxId = gtx.trxId ∧ g.payer = payer ∧ g.packedTrx = ctx.prepareDeferred trx ∧
      g.delayUntil = ctx.pendingBlockTime + (ctx.prepareDeferred trx).delaySec * 1000000 := by
  subst hp
  let trx' := ctx.prepareDeferred trx
  let delayUntil := ctx.pendingBlockTime + trx'.delaySec * 1000000
  refine ⟨⟨gtx.trxId, ctx.receiver, senderId, ctx.receiver, delayUntil,
    delayUntil + env.deferredTrxExpirationWindow * 1000000, ctx.pendingBlockTime, trx'⟩,
    ?_, rfl, rfl, rfl, rfl⟩
  simp only [scheduleDeferredTransaction, hcfa, hold]
  simp only [List.isEmpty_nil, eosioAssert, hprod, Bool.not_false, bne_self_eq_false,
    Bool.false_eq_true, ↓reduceIte, ite_self, beq_self_eq_true, Bool.or_true, Bool.true_or,
    pure_bind]
  exact addPendingRamUsage_of_le (by positivity) hb

/-- Retiring a ready transaction found by its id: it is refunded and erased, and its receipt
recorded under its stored id. -/
theorem pushScheduledTransaction_of_find {trxid : Nat} {k : Name × Nat}
    {g : GeneratedTransactionObject}
    (hfind : db.generated.entries.find? (·.2.trxId == trxid) = some ⟨k, g⟩)
    (hready : g.delayUntil ≤ ctx.pendingBlockTime)
    (hb : generatedTransactionBillableSize + env.packSize g.packedTrx ≤ db.ramUsage g.payer) :
    db.pushScheduledTransaction ctx env trxid = .ok
      { { db with generated := db.generated.erase k }.charge g.payer
          (-(generatedTransactionBillableSize + env.packSize g.packedTrx)) with
        retired := db.retired ++ [(g.trxId, g.packedTrx)] } := by
  have hrefund : db.addPendingRamUsage g.payer
      (-(generatedTransactionBillableSize + env.packSize g.packedTrx)) =
      .ok (db.charge g.payer (-(generatedTransactionBillableSize + env.packSize g.packedTrx))) :=
    addPendingRamUsage_of_neg (by omega) (by omega)
  simp only [pushScheduledTransaction, hfind, hrefund]
  simp [eosioAssert, hready]
  rfl

end Database
end Safeos
