import Safeos.Chain.ApplyContext
import Safeos.Lib.Neighbors

/-!
# Iterators over contract tables (`apply_context::iterator_cache`, `db_*_i64`)

A contract reads its tables through integer iterators that the action's `apply_context` hands
out. `iterator_cache<T>` numbers the objects it has handed out from 0 up, in the order it first
meets them, and each table it has met with an end iterator, `-2`, `-3`, ... in the same way; `-1`
is no table at all. Removing a row through its iterator leaves a hole at that number.

The code keeps pointers to objects and tables; the model keeps the key of a `key_value_object`
(unique in `by_scope_primary`) and the id of a table. Where a table the cache holds has since
been removed with its last row, the code keeps a pointer to the removed object and the model its
id. The index `by_scope_primary` is the list of the `key_value_object` keys ordered by table and
then primary key, and its iterator steps are `Neighbors.next` and `Neighbors.prev`.
-/

namespace Safeos

/-- `apply_context::iterator_cache<T>`, over objects named by `α`. -/
structure IteratorCache (α : Type) where
  tableCache : AList (fun _ : Nat => Int)
  endIteratorToTable : List Nat
  iteratorToObject : List (Option α)
  objectToIterator : AList (fun _ : α => Int)

namespace IteratorCache

variable {α : Type} [DecidableEq α]

/-- The cache of a new `apply_context`. -/
def empty : IteratorCache α := ⟨∅, [], [], ∅⟩

/-- `end_iterator_to_index`. -/
def endIteratorToIndex (ei : Int) : Nat := (-ei - 2).toNat

/-- `index_to_end_iterator`. -/
def indexToEndIterator (indx : Nat) : Int := -((indx : Int) + 2)

/-- `cache_table`: the end iterator of the table, numbered the first time the table is met. -/
def cacheTable (c : IteratorCache α) (tid : Nat) : Int × IteratorCache α :=
  match c.tableCache.lookup tid with
  | some ei => (ei, c)
  | none =>
    let ei := indexToEndIterator c.endIteratorToTable.length
    (ei, { c with
      endIteratorToTable := c.endIteratorToTable ++ [tid]
      tableCache := c.tableCache.insert tid ei })

/-- `get_table`: the table, by its id, which must be cached. -/
def getTable (c : IteratorCache α) (i : Nat) : Except String Nat :=
  match c.tableCache.lookup i with
  | some _ => pure i
  | none => throw "an invariant was broken, table should be in cache"

/-- `get_end_iterator_by_table_id`. -/
def getEndIteratorByTableId (c : IteratorCache α) (i : Nat) : Except String Int :=
  match c.tableCache.lookup i with
  | some ei => pure ei
  | none => throw "an invariant was broken, table should be in cache"

/-- `find_table_by_end_iterator`: `none` for an end iterator no table was given. -/
def findTableByEndIterator (c : IteratorCache α) (ei : Int) : Except String (Option Nat) := do
  eosioAssert (ei < -1) "not an end iterator"
  let indx := endIteratorToIndex ei
  pure c.endIteratorToTable[indx]?

/-- `get`: the object of an iterator still in the cache. -/
def get (c : IteratorCache α) (iterator : Int) : Except String α := do
  eosioAssert (iterator != -1) "invalid iterator"
  eosioAssert (iterator ≥ 0) "dereference of end iterator"
  eosioAssert (iterator < c.iteratorToObject.length) "iterator out of range"
  match c.iteratorToObject[iterator.toNat]? with
  | some (some result) => pure result
  | _ => throw "dereference of deleted object"

/-- `remove`: the iterator's number is not reused. -/
def remove (c : IteratorCache α) (iterator : Int) : Except String (IteratorCache α) := do
  eosioAssert (iterator != -1) "invalid iterator"
  eosioAssert (iterator ≥ 0) "cannot call remove on end iterators"
  eosioAssert (iterator < c.iteratorToObject.length) "iterator out of range"
  match c.iteratorToObject[iterator.toNat]? with
  | some (some objPtr) =>
    pure { c with
      iteratorToObject := c.iteratorToObject.set iterator.toNat none
      objectToIterator := c.objectToIterator.erase objPtr }
  | _ => pure c

/-- `add`: the iterator of an object, numbered the first time the object is met. -/
def add (c : IteratorCache α) (obj : α) : Int × IteratorCache α :=
  match c.objectToIterator.lookup obj with
  | some i => (i, c)
  | none =>
    let i : Int := c.iteratorToObject.length
    (i, { c with
      iteratorToObject := c.iteratorToObject ++ [some obj]
      objectToIterator := c.objectToIterator.insert obj i })

end IteratorCache

namespace Database

open IteratorCache

/-- `key_value_index` ordered `by_scope_primary`: by table, then by primary key. -/
def keyValueIndex (db : Database) : List RowKey :=
  (db.rows.keys.filter (·.kind == .keyValue)).mergeSort fun a b =>
    a.tId < b.tId || (a.tId == b.tId && a.primaryKey ≤ b.primaryKey)

/-- `db_find_i64`. -/
def dbFindI64 (db : Database) (c : IteratorCache RowKey) (code scope table : Name) (id : Nat) :
    Int × IteratorCache RowKey :=
  match db.findTable code scope table with
  | none => (-1, c)
  | some (tid, _) =>
    let (tableEndItr, c) := c.cacheTable tid
    let obj : RowKey := ⟨.keyValue, tid, id⟩
    if (db.rows.lookup obj).isNone then (tableEndItr, c) else c.add obj

/-- `db_lowerbound_i64` and `db_upperbound_i64`, which differ in the first row they accept:
`after tid k` says that row `k` lies at or after the bound in table `tid`'s part of the index. -/
def boundI64 (after : Nat → RowKey → Bool) (db : Database) (c : IteratorCache RowKey)
    (code scope table : Name) : Int × IteratorCache RowKey :=
  match db.findTable code scope table with
  | none => (-1, c)
  | some (tid, _) =>
    let (tableEndItr, c) := c.cacheTable tid
    match db.keyValueIndex.find? (after tid) with
    | none => (tableEndItr, c)
    | some itr => if itr.tId != tid then (tableEndItr, c) else c.add itr

/-- `db_lowerbound_i64`: the first row with a primary key of at least `id`. -/
def dbLowerboundI64 (db : Database) (c : IteratorCache RowKey) (code scope table : Name)
    (id : Nat) : Int × IteratorCache RowKey :=
  boundI64 (fun tid k => tid < k.tId || (tid == k.tId && id ≤ k.primaryKey)) db c code scope table

/-- `db_upperbound_i64`: the first row with a primary key above `id`. -/
def dbUpperboundI64 (db : Database) (c : IteratorCache RowKey) (code scope table : Name)
    (id : Nat) : Int × IteratorCache RowKey :=
  boundI64 (fun tid k => tid < k.tId || (tid == k.tId && id < k.primaryKey)) db c code scope table

/-- `db_end_i64`. -/
def dbEndI64 (db : Database) (c : IteratorCache RowKey) (code scope table : Name) :
    Int × IteratorCache RowKey :=
  match db.findTable code scope table with
  | none => (-1, c)
  | some (tid, _) => c.cacheTable tid

/-- `db_next_i64`: the next iterator, and the primary key it writes out when it reaches a row. -/
def dbNextI64 (db : Database) (c : IteratorCache RowKey) (iterator : Int) :
    Except String (Int × Option Nat × IteratorCache RowKey) := do
  -- cannot increment past end iterator of table
  if iterator < -1 then return (-1, none, c)
  let obj ← c.get iterator
  match Neighbors.next db.keyValueIndex obj with
  | some itr =>
    if itr.tId != obj.tId then return (← c.getEndIteratorByTableId obj.tId, none, c)
    let (i, c) := c.add itr
    pure (i, some itr.primaryKey, c)
  | none => return (← c.getEndIteratorByTableId obj.tId, none, c)

/-- `db_previous_i64`: from an end iterator, the table's last row. -/
def dbPreviousI64 (db : Database) (c : IteratorCache RowKey) (iterator : Int) :
    Except String (Int × Option Nat × IteratorCache RowKey) := do
  if iterator < -1 then
    let some tab ← c.findTableByEndIterator iterator | throw "not a valid end iterator"
    -- `idx.upper_bound(tab->id)` and one step back: the last row of a table up to `tab`'s
    match (db.keyValueIndex.takeWhile (·.tId ≤ tab)).getLast? with
    | none => return (-1, none, c)
    | some itr =>
      if itr.tId != tab then return (-1, none, c)
      let (i, c) := c.add itr
      return (i, some itr.primaryKey, c)
  let obj ← c.get iterator
  match Neighbors.prev db.keyValueIndex obj with
  | none => pure (-1, none, c)
  | some itr =>
    if itr.tId != obj.tId then return (-1, none, c)
    let (i, c) := c.add itr
    pure (i, some itr.primaryKey, c)

/-- `db_get_i64`: the size of the row's value when `buffer_size` is 0, and otherwise the number
of bytes copied, with the bytes. -/
def dbGetI64 (db : Database) (c : IteratorCache RowKey) (iterator : Int) (bufferSize : Nat) :
    Except String (Nat × List UInt8) := do
  let obj ← db.getRow (← c.get iterator)
  let s := obj.value.length
  if bufferSize = 0 then return (s, [])
  let copySize := min bufferSize s
  pure (copySize, obj.value.take copySize)

variable (ctx : ActionContext)

/-- The id of the table `find_or_create_table` returns: the one found, or the next. -/
def tableIdFor (db : Database) (code scope table : Name) : Nat :=
  match db.findTable code scope table with
  | some (tid, _) => tid
  | none => db.nextTableId

/-- `db_store_i64` and the iterator it returns: the table it stores into is cached, then the new
row. -/
def dbStoreI64Iterator (db : Database) (c : IteratorCache RowKey) (code scope table payer : Name)
    (id : Nat) (value : List UInt8) : Except String (Int × Database × IteratorCache RowKey) := do
  let tableid := db.tableIdFor code scope table
  let db ← dbStoreI64 ctx db code scope table payer id value
  let (_, c) := c.cacheTable tableid
  let (i, c) := c.add ⟨.keyValue, tableid, id⟩
  pure (i, db, c)

/-- `db_update_i64` through the iterator cache. -/
def dbUpdateI64Iterator (db : Database) (c : IteratorCache RowKey) (iterator : Int)
    (payer : Name) (value : List UInt8) (checkCode : Bool) : Except String Database := do
  let obj ← c.get iterator
  let _ ← c.getTable obj.tId
  db.updatePrimary ctx obj payer value checkCode

/-- `db_remove_i64` through the iterator cache, which then drops the iterator. -/
def dbRemoveI64Iterator (db : Database) (c : IteratorCache RowKey) (iterator : Int)
    (checkCode : Bool) : Except String (Database × IteratorCache RowKey) := do
  let obj ← c.get iterator
  let _ ← c.getTable obj.tId
  let db ← db.removePrimary ctx obj checkCode
  pure (db, ← c.remove iterator)

end Database

/-- A call of the `db_*_i64` API by the action's contract. -/
inductive KvCall where
  | dbStoreI64 (code scope table payer : Name) (id : Nat) (value : List UInt8)
  | dbUpdateI64 (iterator : Int) (payer : Name) (value : List UInt8) (checkCode : Bool)
  | dbRemoveI64 (iterator : Int) (checkCode : Bool)
  | dbGetI64 (iterator : Int) (bufferSize : Nat)
  | dbNextI64 (iterator : Int)
  | dbPreviousI64 (iterator : Int)
  | dbFindI64 (code scope table : Name) (id : Nat)
  | dbLowerboundI64 (code scope table : Name) (id : Nat)
  | dbUpperboundI64 (code scope table : Name) (id : Nat)
  | dbEndI64 (code scope table : Name)

/-- The database and the i64 iterator cache of one action. -/
structure KvState where
  db : Database
  cache : IteratorCache RowKey

/-- One call; what it returns to the contract is left out. -/
def kvStep (ctx : ActionContext) (s : KvState) : KvCall → Except String KvState
  | .dbStoreI64 code scope table payer id value => do
    let (_, db, cache) ← s.db.dbStoreI64Iterator ctx s.cache code scope table payer id value
    pure ⟨db, cache⟩
  | .dbUpdateI64 iterator payer value checkCode => do
    let db ← s.db.dbUpdateI64Iterator ctx s.cache iterator payer value checkCode
    pure { s with db }
  | .dbRemoveI64 iterator checkCode => do
    let (db, cache) ← s.db.dbRemoveI64Iterator ctx s.cache iterator checkCode
    pure ⟨db, cache⟩
  | .dbGetI64 iterator bufferSize => do
    let _ ← s.db.dbGetI64 s.cache iterator bufferSize
    pure s
  | .dbNextI64 iterator => do
    let (_, _, cache) ← s.db.dbNextI64 s.cache iterator
    pure { s with cache }
  | .dbPreviousI64 iterator => do
    let (_, _, cache) ← s.db.dbPreviousI64 s.cache iterator
    pure { s with cache }
  | .dbFindI64 code scope table id => pure { s with cache := (s.db.dbFindI64 s.cache code scope table id).2 }
  | .dbLowerboundI64 code scope table id =>
    pure { s with cache := (s.db.dbLowerboundI64 s.cache code scope table id).2 }
  | .dbUpperboundI64 code scope table id =>
    pure { s with cache := (s.db.dbUpperboundI64 s.cache code scope table id).2 }
  | .dbEndI64 code scope table => pure { s with cache := (s.db.dbEndI64 s.cache code scope table).2 }

end Safeos
