import Safeos.Auth.Native
import Safeos.Lib.Run
import Mathlib.Data.List.AList

/-!
# Contract tables and deferred transactions (`chain/apply_context.cpp`)

The database an action writes through its `apply_context`: tables (`table_id_object`, found by
code, scope and table name, counting their rows), primary rows keyed by a `uint64_t`
(`db_*_i64`) or a 256-bit key (`db_*_i256`), the rows of the five secondary indices of
`generic_index`, and the deferred transactions (`generated_transaction_object`). Every object
has a payer; `update_db_usage` and `add_ram_usage` charge and refund it the object's billable
size through `resource_limits_manager::add_pending_ram_usage`, the ledger `ramUsage`.

An iterator is the key of the row it designates, and a failed operation aborts its action and
so leaves the database as it was (`Transition.commit`). The checks an operation makes outside
this database (`validate_referenced_accounts`, `add_net_usage`, the `check_authorization` of a
deferred transaction's actions) can only abort it, and are not modelled: the model allows a
superset of the runs of the code. A transaction's id and packed size are those of its
serialization, given by `Env`.
-/

namespace Safeos

namespace Config

/-- `config::overhead_per_row_per_index_ram_bytes`. -/
def overheadPerRowPerIndexRamBytes : Nat := 32

/-- `config::billable_size_v`: a `billable_size<T>::value` rounded up to `billable_alignment`. -/
def billableSizeV (value : Nat) : Nat := (value + 16 - 1) / 16 * 16

end Config

/-- The secondary indices of `generic_index`, by their key type. -/
inductive SecondaryIndex where
  | idx64 | idx128 | idx256 | idxDouble | idxLongDouble
deriving DecidableEq, Repr

/-- The objects a table holds: `key_value_object`, `key256_value_object` and the secondary
index objects. -/
inductive RowKind where
  | keyValue
  | key256Value
  | secondary (idx : SecondaryIndex)
deriving DecidableEq, Repr

/-- `billable_size<T>::value`: the constant-size fields and an overhead per index. -/
def RowKind.billableSizeValue : RowKind → Nat
  | .keyValue => 32 + 8 + 4 + Config.overheadPerRowPerIndexRamBytes * 2
  | .key256Value => 24 + 32 + 8 + 4 + Config.overheadPerRowPerIndexRamBytes * 2
  | .secondary .idx64 => 24 + 8 + Config.overheadPerRowPerIndexRamBytes * 3
  | .secondary .idx128 => 24 + 16 + Config.overheadPerRowPerIndexRamBytes * 3
  | .secondary .idx256 => 24 + 32 + Config.overheadPerRowPerIndexRamBytes * 3
  | .secondary .idxDouble => 24 + 8 + Config.overheadPerRowPerIndexRamBytes * 3
  | .secondary .idxLongDouble => 24 + 16 + Config.overheadPerRowPerIndexRamBytes * 3

def RowKind.billableSize (k : RowKind) : Nat := Config.billableSizeV k.billableSizeValue

/-- `billable_size_v<table_id_object>`. -/
def tableBillableSize : Nat := Config.billableSizeV (44 + Config.overheadPerRowPerIndexRamBytes * 2)

/-- `billable_size_v<generated_transaction_object>`. -/
def generatedTransactionBillableSize : Nat :=
  Config.billableSizeV (96 + 4 + Config.overheadPerRowPerIndexRamBytes * 5)

/-- `table_id_object`, kept under its id. -/
structure TableIdObject where
  code : Name
  scope : Name
  table : Name
  payer : Name
  count : UInt32
deriving DecidableEq, Repr

/-- The unique index `(t_id, primary_key)` of each kind of row. -/
structure RowKey where
  kind : RowKind
  tId : Nat
  primaryKey : Nat
deriving DecidableEq, Repr

/-- A row and its payer. A secondary row has no value; its secondary key is not modelled (the
index on it is unique only together with the primary key). -/
structure ContractRow where
  payer : Name
  value : List UInt8
deriving DecidableEq, Repr

/-- What a row is billed: `value.size()` plus `billable_size_v<key_value_object>` for a primary
row, `billable_size_v<ObjectType>` for a secondary one. -/
def RowKey.billableSize (k : RowKey) (r : ContractRow) : Nat :=
  match k.kind with
  | .secondary _ => k.kind.billableSize
  | _ => r.value.length + k.kind.billableSize

/-- `action`. -/
structure Action where
  account : Name
  name : Name
  authorization : List PermissionLevel
  data : List UInt8
deriving DecidableEq, Repr

/-- `transaction`: the header fields the deferred paths write and read, and the actions. The
reference block is the id `set_reference_block` reads it from. -/
structure Transaction where
  expiration : Nat
  refBlock : Nat
  delaySec : Nat
  contextFreeActions : List Action
  actions : List Action
deriving DecidableEq, Repr

/-- `transaction::first_authorizor`: the actor of the first authorization of any action. -/
def Transaction.firstAuthorizor (trx : Transaction) : Name :=
  match (trx.actions.flatMap (·.authorization)).head? with
  | some level => level.actor
  | none => default

/-- `generated_transaction_object`; the packed transaction is kept unpacked. -/
structure GeneratedTransactionObject where
  trxId : Nat
  sender : Name
  senderId : Nat
  payer : Name
  delayUntil : Nat
  expiration : Nat
  published : Nat
  packedTrx : Transaction
deriving DecidableEq, Repr

/-- `transaction_id_to_sender_id`: the words `_hash[3]` (high) and `_hash[2]` of a 256-bit id. -/
def transactionIdToSenderId (tid : Nat) : Nat :=
  tid / 2 ^ 192 % 2 ^ 64 * 2 ^ 64 + tid / 2 ^ 128 % 2 ^ 64

/-- What the chain computes of a transaction's serialization (`transaction::id()`,
`fc::raw::pack_size`), and `deferred_trx_expiration_window` in seconds. -/
structure Env where
  trxId : Transaction → Nat
  packSize : Transaction → Nat
  deferredTrxExpirationWindow : Nat

/-- What an operation reads of its action and of the controller. Times are in microseconds. -/
structure ActionContext where
  receiver : Name
  actAccount : Name
  authorization : List PermissionLevel
  privileged : Bool
  ramBillingInNotifyAllowed : Bool
  skipAuthCheck : Bool
  producingBlock : Bool
  pendingBlockTime : Nat
  headBlockId : Nat

/-- The first lines of `schedule_deferred_transaction`: the expiration rounded up to the next
second of the pending block time, and the reference block set to the head block. -/
def ActionContext.prepareDeferred (ctx : ActionContext) (trx : Transaction) : Transaction :=
  { trx with expiration := (ctx.pendingBlockTime + 999999) / 1000000, refBlock := ctx.headBlockId }

-- by cases: a bare `rfl` has the kernel compare the two projections' arguments first, and
-- evaluate the rounding division on an unknown time
@[simp] theorem ActionContext.prepareDeferred_delaySec (ctx : ActionContext) (trx : Transaction) :
    (ctx.prepareDeferred trx).delaySec = trx.delaySec := by
  cases trx
  rfl

/-- The contract tables, the deferred transactions under their `by_sender_id` key, the RAM each
account is billed, and the receipts `push_scheduled_transaction` recorded: the id each was
recorded under and the transaction it ran. -/
structure Database where
  tables : AList (fun _ : Nat => TableIdObject)
  nextTableId : Nat
  rows : AList (fun _ : RowKey => ContractRow)
  generated : AList (fun _ : Name × Nat => GeneratedTransactionObject)
  ramUsage : Name → Int
  retired : List (Nat × Transaction)

namespace Database

/-- The empty database. -/
def init : Database := ⟨∅, 0, ∅, ∅, fun _ => 0, []⟩

/-- `resource_limits_manager::add_pending_ram_usage`, which `apply_context::add_ram_usage` and
`remove_scheduled_transaction` reach: `ram_usage` is a `uint64_t`. -/
def addPendingRamUsage (db : Database) (account : Name) (ramDelta : Int) :
    Except String Database :=
  if ramDelta = 0 then pure db
  else do
    let usage := db.ramUsage account
    eosioAssert (ramDelta ≤ 0 || ramDelta ≤ 2 ^ 64 - 1 - usage)
      "Ram usage delta would overflow UINT64_MAX"
    eosioAssert (0 ≤ ramDelta || -ramDelta ≤ usage) "Ram usage delta would underflow UINT64_MAX"
    pure { db with ramUsage := Function.update db.ramUsage account (usage + ramDelta) }

/-- `db.find<table_id_object, by_code_scope_table>`. -/
def findTable (db : Database) (code scope table : Name) : Option (Nat × TableIdObject) :=
  (db.tables.entries.find? fun e => e.2.code == code && e.2.scope == scope && e.2.table == table).map
    fun e => (e.1, e.2)

/-- `apply_context::get_table_item_count`: the `uint32_t` count returned as an `int`, which
reads a count of `2^31` or more as negative. -/
def getTableItemCount (db : Database) (code scope table : Name) : Int :=
  match db.findTable code scope table with
  | some (_, t) => if t.count.toNat < 2 ^ 31 then t.count.toNat else t.count.toNat - 2 ^ 32
  | none => 0

/-- `iterator_cache::get`: the row an iterator designates. -/
def getRow (db : Database) (key : RowKey) : Except String ContractRow :=
  match db.rows.lookup key with
  | some r => pure r
  | none => throw "dereference of deleted object"

/-- `iterator_cache::get_table`. -/
def getTable (db : Database) (tid : Nat) : Except String TableIdObject :=
  match db.tables.lookup tid with
  | some t => pure t
  | none => throw "an invariant was broken, table should be in cache"

variable (ctx : ActionContext)

/-- `apply_context::update_db_usage`: charging an account other than the receiver needs its
authorization, and outside notifications. -/
def updateDbUsage (db : Database) (payer : Name) (delta : Int) : Except String Database := do
  if delta > 0 then
    if !(ctx.privileged || payer == ctx.receiver) then
      eosioAssert (ctx.ramBillingInNotifyAllowed || ctx.receiver == ctx.actAccount)
        "Cannot charge RAM to other accounts during notify."
      Native.requireAuthorization ctx.authorization payer
  db.addPendingRamUsage payer delta

/-- `apply_context::find_or_create_table`: a new table is billed to `payer` and counts no row.
Returns the table's id and object. -/
def findOrCreateTable (db : Database) (code scope table payer : Name) :
    Except String (Database × Nat × TableIdObject) :=
  match db.findTable code scope table with
  | some (tid, t) => pure (db, tid, t)
  | none => do
    let db ← db.updateDbUsage ctx payer tableBillableSize
    let tid := db.nextTableId
    let t : TableIdObject := ⟨code, scope, table, payer, 0⟩
    pure ({ db with tables := db.tables.insert tid t, nextTableId := tid + 1 }, tid, t)

/-- `apply_context::remove_table`. -/
def removeTable (db : Database) (tid : Nat) (t : TableIdObject) : Except String Database := do
  let db ← db.updateDbUsage ctx t.payer (-tableBillableSize)
  pure { db with tables := db.tables.erase tid }

/-- The end of every remove: `--t.count`, `db.remove(obj)`, and the table goes with its last
row. -/
def eraseRow (db : Database) (key : RowKey) (tableObj : TableIdObject) :
    Except String Database :=
  let tableObj := { tableObj with count := tableObj.count - 1 }
  let db := { db with tables := db.tables.insert key.tId tableObj, rows := db.rows.erase key }
  if tableObj.count == 0 then db.removeTable ctx key.tId tableObj else pure db

/-- `db_store_i64` and `db_store_i256`, which differ in the kind of row only. -/
def storePrimary (kind : RowKind) (db : Database) (code scope table payer : Name) (id : Nat)
    (value : List UInt8) : Except String Database := do
  let (db, tableid, tab) ← db.findOrCreateTable ctx code scope table payer
  eosioAssert (payer != default) "must specify a valid account to pay for new record"
  let key : RowKey := ⟨kind, tableid, id⟩
  eosioAssert (db.rows.lookup key).isNone uniquenessViolation
  let db := { db with
    rows := db.rows.insert key ⟨payer, value⟩
    tables := db.tables.insert tableid { tab with count := tab.count + 1 } }
  db.updateDbUsage ctx payer (value.length + kind.billableSize)

/-- `apply_context::db_store_i64`. -/
def dbStoreI64 := storePrimary ctx .keyValue

/-- `apply_context::db_store_i256`. -/
def dbStoreI256 := storePrimary ctx .key256Value

/-- `db_update_i64` and `db_update_i256`: a change of payer refunds the old payer the old size
and charges the new one the new size; otherwise the payer is charged the difference. -/
def updatePrimary (db : Database) (key : RowKey) (payer : Name) (value : List UInt8)
    (checkCode : Bool) : Except String Database := do
  let obj ← db.getRow key
  let tableObj ← db.getTable key.tId
  (if checkCode then eosioAssert (tableObj.code == ctx.receiver) "db access violation"
    else pure ())
  let overhead : Int := key.kind.billableSize
  let oldSize : Int := obj.value.length + overhead
  let newSize : Int := value.length + overhead
  let payer := if payer == default then obj.payer else payer
  let db ← (if obj.payer != payer then do
      let db ← db.updateDbUsage ctx obj.payer (-oldSize)
      db.updateDbUsage ctx payer newSize
    else if oldSize != newSize then db.updateDbUsage ctx obj.payer (newSize - oldSize)
    else pure db)
  pure { db with rows := db.rows.insert key { obj with value, payer } }

/-- `apply_context::db_update_i64`. -/
def dbUpdateI64 (db : Database) (tId primaryKey : Nat) :=
  updatePrimary ctx db ⟨.keyValue, tId, primaryKey⟩

/-- `apply_context::db_update_i256`. -/
def dbUpdateI256 (db : Database) (tId primaryKey : Nat) :=
  updatePrimary ctx db ⟨.key256Value, tId, primaryKey⟩

/-- `db_remove_i64` and `db_remove_i256`. -/
def removePrimary (db : Database) (key : RowKey) (checkCode : Bool) : Except String Database := do
  let obj ← db.getRow key
  let tableObj ← db.getTable key.tId
  (if checkCode then eosioAssert (tableObj.code == ctx.receiver) "db access violation"
    else pure ())
  let db ← db.updateDbUsage ctx obj.payer (-(obj.value.length + key.kind.billableSize : Int))
  db.eraseRow ctx key tableObj

/-- `apply_context::db_remove_i64`. -/
def dbRemoveI64 (db : Database) (tId primaryKey : Nat) :=
  removePrimary ctx db ⟨.keyValue, tId, primaryKey⟩

/-- `apply_context::db_remove_i256`. -/
def dbRemoveI256 (db : Database) (tId primaryKey : Nat) :=
  removePrimary ctx db ⟨.key256Value, tId, primaryKey⟩

/-- `generic_index::store`: unlike the primary stores it checks the payer before finding the
table, and the table is the receiver's. -/
def genericStore (idx : SecondaryIndex) (db : Database) (scope table payer : Name) (id : Nat) :
    Except String Database := do
  eosioAssert (payer != default) "must specify a valid account to pay for new record"
  let (db, tid, tab) ← db.findOrCreateTable ctx ctx.receiver scope table payer
  let key : RowKey := ⟨.secondary idx, tid, id⟩
  eosioAssert (db.rows.lookup key).isNone uniquenessViolation
  let db := { db with
    rows := db.rows.insert key ⟨payer, []⟩
    tables := db.tables.insert tid { tab with count := tab.count + 1 } }
  db.updateDbUsage ctx payer (RowKind.secondary idx).billableSize

/-- `generic_index::update`: only a change of payer is billed. -/
def genericUpdate (idx : SecondaryIndex) (db : Database) (tId primaryKey : Nat) (payer : Name) :
    Except String Database := do
  let key : RowKey := ⟨.secondary idx, tId, primaryKey⟩
  let obj ← db.getRow key
  let tableObj ← db.getTable key.tId
  eosioAssert (tableObj.code == ctx.receiver) "db access violation"
  let payer := if payer == default then obj.payer else payer
  let billingSize : Int := key.kind.billableSize
  let db ← (if obj.payer != payer then do
      let db ← db.updateDbUsage ctx obj.payer (-billingSize)
      db.updateDbUsage ctx payer billingSize
    else pure db)
  pure { db with rows := db.rows.insert key { obj with payer } }

/-- `generic_index::remove`: the refund comes before the access check. -/
def genericRemove (idx : SecondaryIndex) (db : Database) (tId primaryKey : Nat) :
    Except String Database := do
  let key : RowKey := ⟨.secondary idx, tId, primaryKey⟩
  let obj ← db.getRow key
  let db ← db.updateDbUsage ctx obj.payer (-(key.kind.billableSize : Int))
  let tableObj ← db.getTable key.tId
  eosioAssert (tableObj.code == ctx.receiver) "db access violation"
  db.eraseRow ctx key tableObj

variable (env : Env)

/-- `apply_context::schedule_deferred_transaction`. A transaction with the sender's `sender_id`
is replaced in place (outside block production): its payer, times and packed transaction are
rewritten, its `trx_id` is not, and the old payer is not refunded. -/
def scheduleDeferredTransaction (db : Database) (senderId : Nat) (payer : Name) (trx : Transaction)
    (replaceExisting : Bool) : Except String Database := do
  eosioAssert trx.contextFreeActions.isEmpty
    "context free actions are not currently allowed in generated transactions"
  let trx := ctx.prepareDeferred trx
  let delay := trx.delaySec * 1000000
  (if !ctx.skipAuthCheck && !ctx.privileged then
      (if payer != ctx.receiver then Native.requireAuthorization ctx.authorization payer
        else pure ())
    else pure ())
  let published := ctx.pendingBlockTime
  let delayUntil := published + delay
  let expiration := delayUntil + env.deferredTrxExpirationWindow * 1000000
  let generated ← (match db.generated.lookup (ctx.receiver, senderId) with
    | some gtx => do
      eosioAssert replaceExisting
        "deferred transaction with the same sender_id and payer already exists"
      eosioAssert (!ctx.producingBlock) "Replacing a deferred transaction is temporarily disabled."
      pure (db.generated.insert (ctx.receiver, senderId) { gtx with
        sender := ctx.receiver, senderId, payer, published, delayUntil, expiration, packedTrx := trx })
    | none => do
      eosioAssert (db.generated.entries.all (·.2.trxId != env.trxId trx)) uniquenessViolation
      pure (db.generated.insert (ctx.receiver, senderId)
        { trxId := env.trxId trx, sender := ctx.receiver, senderId := senderId, payer := payer,
          published := published, delayUntil := delayUntil, expiration := expiration,
          packedTrx := trx }))
  eosioAssert (ctx.ramBillingInNotifyAllowed || ctx.receiver == ctx.actAccount ||
      ctx.receiver == payer || ctx.privileged)
    "Cannot charge RAM to other accounts during notify."
  { db with generated }.addPendingRamUsage payer (generatedTransactionBillableSize + env.packSize trx)

/-- `apply_context::cancel_deferred_transaction`; tells whether a transaction was found. -/
def cancelDeferredTransaction (db : Database) (senderId : Nat) (sender : Name) :
    Except String (Database × Bool) :=
  match db.generated.lookup (sender, senderId) with
  | some gto => do
    let db ← db.addPendingRamUsage gto.payer
      (-(generatedTransactionBillableSize + env.packSize gto.packedTrx : Int))
    pure ({ db with generated := db.generated.erase (sender, senderId) }, true)
  | none => pure (db, false)

/-- `transaction_context::schedule_transaction`: a delayed input transaction, with no sender,
paid by its first authorizer. -/
def scheduleTransaction (db : Database) (trx : Transaction) : Except String Database := do
  let id := env.trxId trx
  let published := ctx.pendingBlockTime
  let delayUntil := published + trx.delaySec * 1000000
  let gto : GeneratedTransactionObject :=
    { trxId := id, payer := trx.firstAuthorizor, sender := default,
      senderId := transactionIdToSenderId id, published := published, delayUntil := delayUntil,
      expiration := delayUntil + env.deferredTrxExpirationWindow * 1000000, packedTrx := trx }
  eosioAssert ((db.generated.lookup (default, gto.senderId)).isNone &&
      db.generated.entries.all (·.2.trxId != id)) uniquenessViolation
  let db := { db with generated := db.generated.insert (default, gto.senderId) gto }
  db.addPendingRamUsage gto.payer (generatedTransactionBillableSize + env.packSize trx)

/-- `controller::push_scheduled_transaction` by id, as far as the database sees it:
`remove_scheduled_transaction` refunds the payer and erases the object, and the receipt is
recorded under the stored `trx_id` for the transaction unpacked from `packed_trx`. -/
def pushScheduledTransaction (db : Database) (trxid : Nat) : Except String Database := do
  let some e := db.generated.entries.find? (·.2.trxId == trxid) | throw "unknown transaction"
  let gtrx := e.2
  let db ← db.addPendingRamUsage gtrx.payer
    (-(generatedTransactionBillableSize + env.packSize gtrx.packedTrx : Int))
  let db := { db with generated := db.generated.erase e.1 }
  eosioAssert (gtrx.delayUntil ≤ ctx.pendingBlockTime) "this transaction isn't ready"
  pure { db with retired := db.retired ++ [(gtrx.trxId, gtrx.packedTrx)] }

/-- `apply_eosio_canceldelay`: cancels the delayed transaction of that id, which has no sender. -/
def canceldelay (db : Database) (cancelingAuth : PermissionLevel) (trxId : Nat) :
    Except String Database := do
  Native.requireAuthorization ctx.authorization cancelingAuth.actor
  let (db, _) ← db.cancelDeferredTransaction env (transactionIdToSenderId trxId) default
  pure db

end Database

/-- The operations on the database: the intrinsics a contract calls, the native `canceldelay`,
and the controller's paths for delayed transactions. -/
inductive Op where
  | dbStoreI64 (code scope table payer : Name) (id : Nat) (value : List UInt8)
  | dbUpdateI64 (tId primaryKey : Nat) (payer : Name) (value : List UInt8) (checkCode : Bool)
  | dbRemoveI64 (tId primaryKey : Nat) (checkCode : Bool)
  | dbStoreI256 (code scope table payer : Name) (id : Nat) (value : List UInt8)
  | dbUpdateI256 (tId primaryKey : Nat) (payer : Name) (value : List UInt8) (checkCode : Bool)
  | dbRemoveI256 (tId primaryKey : Nat) (checkCode : Bool)
  | idxStore (idx : SecondaryIndex) (scope table payer : Name) (id : Nat)
  | idxUpdate (idx : SecondaryIndex) (tId primaryKey : Nat) (payer : Name)
  | idxRemove (idx : SecondaryIndex) (tId primaryKey : Nat)
  | scheduleDeferredTransaction (senderId : Nat) (payer : Name) (trx : Transaction)
      (replaceExisting : Bool)
  | cancelDeferredTransaction (senderId : Nat) (sender : Name)
  | scheduleTransaction (trx : Transaction)
  | pushScheduledTransaction (trxId : Nat)
  | canceldelay (cancelingAuth : PermissionLevel) (trxId : Nat)

/-- An operation in the context of its action. -/
structure Request where
  ctx : ActionContext
  op : Op

namespace Database

/-- One operation, completed or aborted as a whole. -/
def step (env : Env) (db : Database) (r : Request) : Except String Database :=
  match r.op with
  | .dbStoreI64 code scope table payer id value => db.dbStoreI64 r.ctx code scope table payer id value
  | .dbUpdateI64 tId pk payer value checkCode => db.dbUpdateI64 r.ctx tId pk payer value checkCode
  | .dbRemoveI64 tId pk checkCode => db.dbRemoveI64 r.ctx tId pk checkCode
  | .dbStoreI256 code scope table payer id value =>
    db.dbStoreI256 r.ctx code scope table payer id value
  | .dbUpdateI256 tId pk payer value checkCode => db.dbUpdateI256 r.ctx tId pk payer value checkCode
  | .dbRemoveI256 tId pk checkCode => db.dbRemoveI256 r.ctx tId pk checkCode
  | .idxStore idx scope table payer id => db.genericStore r.ctx idx scope table payer id
  | .idxUpdate idx tId pk payer => db.genericUpdate r.ctx idx tId pk payer
  | .idxRemove idx tId pk => db.genericRemove r.ctx idx tId pk
  | .scheduleDeferredTransaction senderId payer trx replaceExisting =>
    db.scheduleDeferredTransaction r.ctx env senderId payer trx replaceExisting
  | .cancelDeferredTransaction senderId sender =>
    Prod.fst <$> db.cancelDeferredTransaction env senderId sender
  | .scheduleTransaction trx => db.scheduleTransaction r.ctx env trx
  | .pushScheduledTransaction trxId => db.pushScheduledTransaction r.ctx env trxId
  | .canceldelay cancelingAuth trxId => db.canceldelay r.ctx env cancelingAuth trxId

end Database

end Safeos
