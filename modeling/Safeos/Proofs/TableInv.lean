import Safeos.Proofs.DatabaseSpec

/-!
# Table row counts

A `table_id_object` counts the rows stored under its id in one `uint32_t`, shared by the
primary `key_value_object` and `key256_value_object` rows and the rows of the five secondary
indices. A store adds one to it, a remove takes one off, and the remove that brings it to zero
removes the table. `TablesInv` says that the count is the number of rows, that no table is left
empty and that every row is in a table; it holds after every run in which no table comes to hold
`2^32` rows. At that size `++t.count` wraps to zero: `table_count_wraps` runs `2^32` stores
into one table.
-/

namespace Safeos
namespace Database

/-- The number of rows of every kind stored in table `tid`. -/
def rowCount (rows : AList fun _ : RowKey => ContractRow) (tid : Nat) : Nat :=
  rows.sum fun k _ => if k.tId = tid then 1 else 0

section RowCount

variable {rows : AList fun _ : RowKey => ContractRow} {key : RowKey} {obj : ContractRow}
  {tid : Nat}

theorem rowCount_insert_of_lookup_none (r : ContractRow) (h : rows.lookup key = none) :
    rowCount (rows.insert key r) tid = rowCount rows tid + if key.tId = tid then 1 else 0 := by
  rw [rowCount, AList.sum_insert_of_notMem _ r (AList.lookup_eq_none.1 h), add_comm]
  rfl

theorem rowCount_insert_of_lookup (r : ContractRow) (h : rows.lookup key = some obj) :
    rowCount (rows.insert key r) tid = rowCount rows tid := by
  have := AList.sum_insert_of_lookup (fun k (_ : ContractRow) => if k.tId = tid then 1 else 0) r h
  unfold rowCount
  omega

theorem rowCount_erase_of_lookup (tid : Nat) (h : rows.lookup key = some obj) :
    rowCount (rows.erase key) tid + (if key.tId = tid then 1 else 0) = rowCount rows tid :=
  AList.sum_erase_of_lookup _ h

/-- A table holding a row counts at least that row. -/
theorem rowCount_pos (h : rows.lookup key = some obj) : 0 < rowCount rows key.tId := by
  have := rowCount_erase_of_lookup key.tId h
  rw [if_pos rfl] at this
  omega

theorem rowCount_eq_zero (h : ∀ k r, rows.lookup k = some r → k.tId ≠ tid) :
    rowCount rows tid = 0 := by
  unfold rowCount
  rw [AList.sum_congr (g := fun _ _ => 0) fun k r hk => if_neg (h k r hk)]
  simp [AList.sum]

end RowCount

/-- `--t.count` on a positive count. -/
theorem toNat_sub_one {c : UInt32} (h : c ≠ 0) : (c - 1).toNat = c.toNat - 1 := by
  have : c.toNat ≠ 0 := by simpa [← UInt32.toNat_inj] using h
  rw [UInt32.toNat_sub_of_le _ _ (by simp [UInt32.le_iff_toNat_le]; omega), UInt32.toNat_one]

/-- Table ids are issued from `nextTableId` up. -/
def IdsBelow (db : Database) : Prop :=
  ∀ tid t, db.tables.lookup tid = some t → tid < db.nextTableId

namespace IdsBelow

variable {env : Env} {ctx : ActionContext} {db db' : Database} {rep : Bool}

theorem init : IdsBelow init := by
  simp [IdsBelow, Database.init]

/-- A table is found under an id or a new one is inserted under `nextTableId`, which goes up. -/
theorem store_table (hi : IdsBelow db) {db₁ : Database} {tid : Nat} {t : TableIdObject}
    (htab : (db.tables.lookup tid = some t ∧ db₁ = db) ∨
      (tid = db.nextTableId ∧ t.count = 0 ∧ db₁ = { db.charge t.payer tableBillableSize with
        tables := db.tables.insert tid t, nextTableId := tid + 1 })) :
    IdsBelow db₁ ∧ tid < db₁.nextTableId := by
  rcases htab with ⟨hl, rfl⟩ | ⟨rfl, -, rfl⟩
  · exact ⟨hi, hi _ _ hl⟩
  · refine ⟨fun tid' t' h' => ?_, Nat.lt_succ_self _⟩
    rcases AList.lookup_insert_cases h' with ⟨rfl, -⟩ | ⟨-, h'⟩
    · exact Nat.lt_succ_self _
    · exact Nat.lt_succ_of_lt (hi _ _ h')

theorem effect (hi : IdsBelow db) (he : Effect env ctx db rep db') : IdsBelow db' := by
  cases he with
  | store htab =>
    obtain ⟨hi₁, hlt⟩ := hi.store_table htab
    intro tid' t' h'
    rcases AList.lookup_insert_cases h' with ⟨rfl, -⟩ | ⟨-, h'⟩
    · exact hlt
    · exact hi₁ _ _ h'
  | remove _ htab =>
    intro tid' t' h'
    rcases AList.lookup_insert_cases h' with ⟨rfl, -⟩ | ⟨-, h'⟩
    · exact hi _ _ htab
    · exact hi _ _ h'
  | removeLast =>
    intro tid' t' h'
    obtain ⟨hne, h'⟩ := AList.lookup_of_lookup_erase h'
    rw [AList.lookup_insert_ne hne] at h'
    exact hi _ _ h'
  | update | create | replace | cancel | retire | unchanged => exact hi

end IdsBelow

/-- The tables count their rows. -/
structure TablesInv (db : Database) : Prop where
  /-- Every table counts the rows stored under its id. -/
  count : ∀ tid t, db.tables.lookup tid = some t → t.count.toNat = rowCount db.rows tid
  /-- No table is left empty, so `--t.count` never wraps. -/
  count_ne_zero : ∀ tid t, db.tables.lookup tid = some t → t.count ≠ 0
  /-- Every row is stored in a table. -/
  row_table : ∀ k r, db.rows.lookup k = some r → db.tables.lookup k.tId ≠ none

namespace TablesInv

variable {env : Env} {ctx : ActionContext} {db db' : Database} {rep : Bool}

theorem init : TablesInv init :=
  ⟨by simp [Database.init], by simp [Database.init], by simp [Database.init]⟩

/-- An operation that leaves the tables and the rows alone. -/
theorem congr (hi : TablesInv db) (ht : db'.tables = db.tables) (hr : db'.rows = db.rows) :
    TablesInv db' := by
  obtain ⟨h₁, h₂, h₃⟩ := hi
  rw [← ht, ← hr] at *
  exact ⟨h₁, h₂, h₃⟩

/-- The table a store goes to, found or just created, counts the rows stored under its id, and
only that table may be new. -/
theorem store_table (hi : TablesInv db) (hids : IdsBelow db) {db₁ : Database} {tid : Nat}
    {t : TableIdObject}
    (htab : (db.tables.lookup tid = some t ∧ db₁ = db) ∨
      (tid = db.nextTableId ∧ t.count = 0 ∧ db₁ = { db.charge t.payer tableBillableSize with
        tables := db.tables.insert tid t, nextTableId := tid + 1 })) :
    db₁.rows = db.rows ∧ t.count.toNat = rowCount db.rows tid ∧
      ∀ tid', tid' ≠ tid → db₁.tables.lookup tid' = db.tables.lookup tid' := by
  rcases htab with ⟨hl, rfl⟩ | ⟨rfl, hc, rfl⟩
  · exact ⟨rfl, hi.count _ _ hl, fun _ _ => rfl⟩
  · refine ⟨rfl, ?_, fun _ h => AList.lookup_insert_ne h⟩
    -- a new table's id is above every table's, so no row is stored under it yet
    rw [hc, UInt32.toNat_zero, eq_comm]
    refine rowCount_eq_zero fun k r hk hkt => ?_
    obtain ⟨t', ht'⟩ := Option.ne_none_iff_exists'.1 (hi.row_table k r hk)
    exact lt_irrefl _ (hkt ▸ hids _ _ ht')

theorem store (hi : TablesInv db) (hids : IdsBelow db) {db₁ : Database} {tid : Nat} {t : TableIdObject} {key : RowKey}
    {r : ContractRow} {d : Int}
    (htab : (db.tables.lookup tid = some t ∧ db₁ = db) ∨
      (tid = db.nextTableId ∧ t.count = 0 ∧ db₁ = { db.charge t.payer tableBillableSize with
        tables := db.tables.insert tid t, nextTableId := tid + 1 }))
    (hkey : key.tId = tid) (hfresh : db₁.rows.lookup key = none)
    (hfit : rowCount (db₁.rows.insert key r) tid < 2 ^ 32) :
    TablesInv ({ db₁ with
      rows := db₁.rows.insert key r
      tables := db₁.tables.insert tid { t with count := t.count + 1 } }.charge r.payer d) := by
  obtain ⟨hrows, hc, hframe⟩ := hi.store_table hids htab
  rw [hrows] at hfresh hfit ⊢
  have hcount (tid' : Nat) : rowCount (db.rows.insert key r) tid' =
      rowCount db.rows tid' + if tid = tid' then 1 else 0 := by
    rw [rowCount_insert_of_lookup_none r hfresh, hkey]
  -- below `2^32` rows the count goes up without wrapping
  have hsucc : (t.count + 1).toNat = rowCount db.rows tid + 1 := by
    rw [hcount, if_pos rfl] at hfit
    rw [UInt32.toNat_add, UInt32.toNat_one, hc]
    exact Nat.mod_eq_of_lt hfit
  refine ⟨fun tid' t' h' => ?_, fun tid' t' h' => ?_, fun k r' h' => ?_⟩
  all_goals simp only [charge_tables, charge_rows] at h' ⊢
  · rcases AList.lookup_insert_cases h' with ⟨rfl, rfl⟩ | ⟨hne, h'⟩
    · rw [hsucc, hcount, if_pos rfl]
    · rw [hframe _ hne] at h'
      rw [hi.count _ _ h', hcount, if_neg (Ne.symm hne), add_zero]
  · rcases AList.lookup_insert_cases h' with ⟨rfl, rfl⟩ | ⟨hne, h'⟩
    · intro h0
      have := congrArg UInt32.toNat h0
      rw [hsucc, UInt32.toNat_zero] at this
      omega
    · rw [hframe _ hne] at h'
      exact hi.count_ne_zero _ _ h'
  · by_cases hk : k.tId = tid
    · simp [hk]
    · rw [AList.lookup_insert_ne hk, hframe _ hk]
      rcases AList.lookup_insert_cases h' with ⟨rfl, -⟩ | ⟨-, h'⟩
      · exact absurd hkey hk
      · exact hi.row_table k r' h'

theorem update (hi : TablesInv db) {key : RowKey} {obj r : ContractRow} {d e : Int}
    (hobj : db.rows.lookup key = some obj) :
    TablesInv { (db.charge obj.payer d).charge r.payer e with rows := db.rows.insert key r } := by
  refine ⟨fun tid t h => ?_, hi.count_ne_zero, fun k r' h => ?_⟩
  · rw [rowCount_insert_of_lookup r hobj]
    exact hi.count tid t h
  · rcases AList.lookup_insert_cases h with ⟨rfl, -⟩ | ⟨-, h⟩
    · exact hi.row_table _ _ hobj
    · exact hi.row_table _ _ h

/-- A remove that leaves rows in the table: its count goes down by one with them. -/
theorem remove (hi : TablesInv db) {key : RowKey} {obj : ContractRow} {t : TableIdObject}
    {d : Int} (hobj : db.rows.lookup key = some obj) (htab : db.tables.lookup key.tId = some t)
    (hcount : t.count - 1 ≠ 0) :
    TablesInv { db.charge obj.payer d with
      tables := db.tables.insert key.tId { t with count := t.count - 1 },
      rows := db.rows.erase key } := by
  have herase (tid : Nat) := rowCount_erase_of_lookup tid hobj
  have hpred : (t.count - 1).toNat = rowCount db.rows key.tId - 1 := by
    rw [← hi.count _ _ htab, toNat_sub_one (hi.count_ne_zero _ _ htab)]
  refine ⟨fun tid' t' h' => ?_, fun tid' t' h' => ?_, fun k r h' => ?_⟩
  all_goals simp only at h' ⊢
  · have := herase tid'
    rcases AList.lookup_insert_cases h' with ⟨rfl, rfl⟩ | ⟨hne, h'⟩
    · rw [if_pos rfl] at this
      rw [hpred]
      omega
    · rw [if_neg (Ne.symm hne)] at this
      rw [hi.count _ _ h']
      omega
  · rcases AList.lookup_insert_cases h' with ⟨rfl, rfl⟩ | ⟨-, h'⟩
    · exact hcount
    · exact hi.count_ne_zero _ _ h'
  · obtain ⟨-, h'⟩ := AList.lookup_of_lookup_erase h'
    by_cases hk : k.tId = key.tId
    · simp [hk]
    · rw [AList.lookup_insert_ne hk]
      exact hi.row_table k r h'

/-- The remove of a table's last row: no row is left under its id, and the table goes. -/
theorem removeLast (hi : TablesInv db) {key : RowKey} {obj : ContractRow} {t : TableIdObject}
    {d e : Int} (hobj : db.rows.lookup key = some obj) (htab : db.tables.lookup key.tId = some t)
    (hcount : t.count - 1 = 0) :
    TablesInv { (db.charge obj.payer d).charge t.payer e with
      tables := (db.tables.insert key.tId { t with count := t.count - 1 }).erase key.tId,
      rows := db.rows.erase key } := by
  have herase (tid : Nat) := rowCount_erase_of_lookup tid hobj
  have hone : rowCount db.rows key.tId = 1 := by
    have := toNat_sub_one (hi.count_ne_zero _ _ htab)
    rw [hcount, UInt32.toNat_zero, hi.count _ _ htab] at this
    have := rowCount_pos hobj
    omega
  -- the table's last row was the one erased
  have hempty : rowCount (db.rows.erase key) key.tId = 0 := by
    have := herase key.tId
    rw [if_pos rfl, hone] at this
    omega
  refine ⟨fun tid' t' h' => ?_, fun tid' t' h' => ?_, fun k r h' => ?_⟩
  all_goals simp only at h' ⊢
  all_goals try
    obtain ⟨hne, h'⟩ := AList.lookup_of_lookup_erase h'
    rw [AList.lookup_insert_ne hne] at h'
  · have := herase tid'
    rw [if_neg (Ne.symm hne)] at this
    rw [hi.count _ _ h']
    omega
  · exact hi.count_ne_zero _ _ h'
  · obtain ⟨-, hr⟩ := AList.lookup_of_lookup_erase h'
    have hk : k.tId ≠ key.tId := fun hk => by
      have := rowCount_pos h'
      rw [hk, hempty] at this
      exact lt_irrefl _ this
    rw [AList.lookup_erase_ne hk, AList.lookup_insert_ne hk]
    exact hi.row_table k r hr

/-- Every completed operation keeps the invariant, if it leaves no table with `2^32` rows. -/
theorem effect (hi : TablesInv db) (hids : IdsBelow db) (he : Effect env ctx db rep db')
    (hfit : ∀ tid, rowCount db'.rows tid < 2 ^ 32) : TablesInv db' := by
  cases he with
  | store htab hkey hfresh => exact hi.store hids htab hkey hfresh (hfit _)
  | update hobj _ => exact hi.update hobj
  | remove hobj htab hcount => exact hi.remove hobj htab hcount
  | removeLast hobj htab hcount => exact hi.removeLast hobj htab hcount
  | create | replace | cancel | retire => exact hi.congr rfl rfl
  | unchanged => exact hi

/-- `get_table_item_count` is the number of rows of the table, below `2^31` rows. -/
theorem getTableItemCount_eq (hi : TablesInv db) {code scope table : Name} {tid : Nat}
    {t : TableIdObject} (h : db.findTable code scope table = some (tid, t))
    (hlt : rowCount db.rows tid < 2 ^ 31) :
    db.getTableItemCount code scope table = rowCount db.rows tid := by
  have hc := hi.count _ _ (findTable_lookup h)
  simpa [getTableItemCount, h, hc] using hlt

end TablesInv

/-- The step leaves no table with `2^32` rows or more. -/
def FitsCount (env : Env) (db : Database) (r : Request) : Prop :=
  ∀ db', db.step env r = .ok db' → ∀ tid, rowCount db'.rows tid < 2 ^ 32

theorem TablesInv.step (env : Env) :
    Transition.PreservesUnder (FitsCount env) (fun db => IdsBelow db ∧ TablesInv db) (step env) :=
  fun _ _ _ hfit ⟨hids, hi⟩ h =>
    ⟨hids.effect (step_effect h), hi.effect hids (step_effect h) (hfit _ h)⟩

/-- A completed operation adds at most one row to a table. -/
theorem rowCount_effect_le {env : Env} {ctx : ActionContext} {db db' : Database} {rep : Bool}
    (he : Effect env ctx db rep db') (tid : Nat) : rowCount db'.rows tid ≤ rowCount db.rows tid + 1 := by
  cases he with
  | @store _ db₁ _ _ key r htab _ hfresh =>
    have hrows : db₁.rows = db.rows := by
      rcases htab with ⟨-, rfl⟩ | ⟨-, -, rfl⟩ <;> rfl
    simp only [charge_rows]
    rw [rowCount_insert_of_lookup_none _ hfresh, hrows]
    split <;> omega
  | update hobj _ =>
    rw [rowCount_insert_of_lookup _ hobj]
    omega
  | remove hobj _ _ | removeLast hobj _ _ =>
    have := rowCount_erase_of_lookup tid hobj
    dsimp only
    omega
  | create | replace | cancel | retire => simp
  | unchanged => omega

/-- Operations that, one row each, cannot fill a table keep every table under `2^32` rows. -/
theorem guarded_fitsCount (env : Env) :
    ∀ (reqs : List Request) (db : Database), (∀ tid, rowCount db.rows tid + reqs.length < 2 ^ 32) →
      Transition.Guarded (FitsCount env) (step env) db reqs
  | [], _, _ => trivial
  | r :: rs, db, h => by
    have hstep : ∀ db', db.step env r = .ok db' → ∀ tid,
        rowCount db'.rows tid ≤ rowCount db.rows tid + 1 :=
      fun _ h' tid => rowCount_effect_le (step_effect h') tid
    refine ⟨fun db' h' tid => ?_, guarded_fitsCount env rs _ fun tid => ?_⟩
    · have h₁ := hstep db' h' tid
      have h₂ := h tid
      simp only [List.length_cons] at h₂
      omega
    · -- a failed operation leaves the database as it was
      have h₂ := h tid
      simp only [List.length_cons] at h₂
      rcases Transition.commit_cases (step env) db r with hc | hc
      · have h₁ := hstep _ hc tid
        omega
      · rw [hc]
        omega

/-- Fewer than `2^32` operations from the empty database never fill a table. -/
theorem guarded_of_length (env : Env) (reqs : List Request) (hlen : reqs.length < 2 ^ 32) :
    Transition.Guarded (FitsCount env) (step env) init reqs :=
  guarded_fitsCount env reqs init fun tid => by
    rw [rowCount_eq_zero (fun k r h => by simp [Database.init] at h)]
    omega

/-- An environment in which every transaction has id and size zero. -/
def zeroEnv : Env := ⟨fun _ => 0, fun _ => 0, 0⟩

/-! ### Runs of stores -/

section Stores

/-- `eosio`'s store of row `i`, with an empty value, into its table `eosio`/`eosio`. -/
def storeRequest (i : Nat) : Request :=
  ⟨selfContext Config.systemAccountName, .dbStoreI64 Config.systemAccountName
    Config.systemAccountName Config.systemAccountName Config.systemAccountName i []⟩

/-- The stores of the rows `0, …, n - 1`. -/
def storeRequests (n : Nat) : List Request :=
  (List.range n).map storeRequest

/-- The database after the first `n` of those stores, `n ≥ 1`: one table under id `0`, whose
count is `n` modulo `2^32`. -/
structure StoredRows (n : Nat) (db : Database) : Prop where
  tables : db.tables.entries = [⟨0, ⟨Config.systemAccountName, Config.systemAccountName,
    Config.systemAccountName, Config.systemAccountName, UInt32.ofNat n⟩⟩]
  fresh : ∀ i, n ≤ i → db.rows.lookup ⟨.keyValue, 0, i⟩ = none
  rows : rowCount db.rows 0 = n
  ram : db.ramUsage Config.systemAccountName = 112 * (n + 1)

variable (env : Env)

theorem storedRows_one : StoredRows 1 (after env (storeRequests 1)) := by
  have hstep : step env init (storeRequest 0) = .ok _ :=
    storePrimary_of_findTable_none rfl (by decide) rfl rfl (by decide)
  simp only [after, storeRequests, List.range_one, List.map_cons, List.map_nil,
    Transition.run_cons, Transition.commit_of_ok hstep, Transition.run_nil]
  refine ⟨by simp [Database.init], fun i hi => ?_, ?_, ?_⟩
  · simp only [charge_rows]
    rw [AList.lookup_insert_ne (by simp [Database.init]; omega)]
    rfl
  · simp only [charge_rows]
    rw [rowCount_insert_of_lookup_none _ rfl]
    rfl
  · simp [charge_ramUsage, Database.init, tableBillableSize, RowKind.billableSize,
      RowKind.billableSizeValue, Config.billableSizeV, Config.overheadPerRowPerIndexRamBytes]

theorem StoredRows.next {n : Nat} {db : Database} (h : StoredRows (n + 1) db)
    (hn : n + 1 < 2 ^ 32) :
    StoredRows (n + 2) (Transition.commit (step env) db (storeRequest (n + 1))) := by
  have hsize : (RowKind.keyValue.billableSize : Int) = 112 := rfl
  have hfind : db.findTable Config.systemAccountName Config.systemAccountName
      Config.systemAccountName = some (0, ⟨Config.systemAccountName, Config.systemAccountName,
        Config.systemAccountName, Config.systemAccountName, UInt32.ofNat (n + 1)⟩) := by
    simp [findTable, h.tables]
  have hstep : step env db (storeRequest (n + 1)) = .ok _ :=
    storePrimary_of_findTable rfl (by decide) hfind (h.fresh _ le_rfl)
      (by rw [h.ram, List.length_nil, Nat.cast_zero, zero_add, hsize]; omega)
  rw [Transition.commit_of_ok hstep]
  refine ⟨?_, fun i hi => ?_, ?_, ?_⟩
  · have hcount : UInt32.ofNat (n + 1) + 1 = UInt32.ofNat (n + 2) := by
      rw [← UInt32.toNat_inj]
      simp [UInt32.toNat_add]
    simp only [charge_tables, AList.entries_insert, h.tables, hcount]
    simp
  · simp only [charge_rows]
    rw [AList.lookup_insert_ne (by simp; omega)]
    exact h.fresh i (by omega)
  · simp only [charge_rows]
    rw [rowCount_insert_of_lookup_none _ (h.fresh _ le_rfl), h.rows, if_pos rfl]
  · rw [charge_ramUsage, if_pos rfl, h.ram, List.length_nil, Nat.cast_zero, zero_add, hsize]
    push_cast
    omega

/-- Every prefix of the `2^32` stores completes. -/
theorem storedRows (n : Nat) (hn : n < 2 ^ 32) :
    StoredRows (n + 1) (after env (storeRequests (n + 1))) := by
  induction n with
  | zero => exact storedRows_one env
  | succ n ih =>
    have hrun : after env (storeRequests (n + 2)) =
        Transition.commit (step env) (after env (storeRequests (n + 1))) (storeRequest (n + 1)) := by
      simp only [after, storeRequests, List.range_succ (n := n + 1), List.map_append,
        Transition.run_append, List.map_cons, List.map_nil, Transition.run_cons, Transition.run_nil]
    rw [hrun]
    exact (ih (by omega)).next env hn

end Stores

theorem table_count_exact (env : Env) (reqs : List Request)
    (hfit : Transition.Guarded (FitsCount env) (step env) init reqs) :
    TablesInv (after env reqs) ∧
      ∀ code scope table tid t, (after env reqs).findTable code scope table = some (tid, t) →
        rowCount (after env reqs).rows tid < 2 ^ 31 →
        (after env reqs).getTableItemCount code scope table = rowCount (after env reqs).rows tid := by
  have hi : TablesInv (after env reqs) :=
    ((TablesInv.step env).run ⟨IdsBelow.init, TablesInv.init⟩ hfit).2
  exact ⟨hi, fun _ _ _ _ _ h hlt => hi.getTableItemCount_eq h hlt⟩

theorem table_count_exact_stores :
    Transition.Guarded (FitsCount zeroEnv) (step zeroEnv) init (storeRequests 2) ∧
      TablesInv (after zeroEnv (storeRequests 2)) ∧
      (after zeroEnv (storeRequests 2)).getTableItemCount Config.systemAccountName
        Config.systemAccountName Config.systemAccountName = 2 := by
  have hfit := guarded_of_length zeroEnv (storeRequests 2) (by simp [storeRequests])
  have hrows := storedRows zeroEnv 1 (by norm_num)
  have hfind : (after zeroEnv (storeRequests 2)).findTable Config.systemAccountName
      Config.systemAccountName Config.systemAccountName = some (0, ⟨Config.systemAccountName,
        Config.systemAccountName, Config.systemAccountName, Config.systemAccountName,
        UInt32.ofNat 2⟩) := by
    simp [findTable, hrows.tables]
  refine ⟨hfit, (table_count_exact zeroEnv (storeRequests 2) hfit).1, ?_⟩
  rw [(table_count_exact zeroEnv (storeRequests 2) hfit).2 _ _ _ _ _ hfind (by rw [hrows.rows]; norm_num),
    hrows.rows]
  rfl

/-! ### `2^32` rows -/

section Wrap

variable (env : Env)

/-- In every environment, `2^32` stores into one table complete and wrap its count to zero: the
table stays, holding `2^32` rows, and `get_table_item_count` reports none. -/
theorem table_count_wraps :
    ∃ t, (after env (storeRequests (2 ^ 32))).tables.lookup 0 = some t ∧ t.count = 0 ∧
      rowCount (after env (storeRequests (2 ^ 32))).rows 0 = 2 ^ 32 ∧
      (after env (storeRequests (2 ^ 32))).getTableItemCount Config.systemAccountName
        Config.systemAccountName Config.systemAccountName = 0 := by
  have h := storedRows env (2 ^ 32 - 1) (by norm_num)
  rw [show 2 ^ 32 - 1 + 1 = 2 ^ 32 by norm_num] at h
  have hwrap : UInt32.ofNat (2 ^ 32) = 0 := by decide
  refine ⟨⟨Config.systemAccountName, Config.systemAccountName, Config.systemAccountName,
    Config.systemAccountName, UInt32.ofNat (2 ^ 32)⟩, ?_, hwrap, h.rows, ?_⟩
  · rw [AList.lookup, h.tables]
    simp
  · rw [getTableItemCount, findTable, h.tables]
    simp

end Wrap

theorem store_wraps_table_count :
    ∃ t, (after zeroEnv (storeRequests (2 ^ 32))).tables.lookup 0 = some t ∧ t.count = 0 ∧
      rowCount (after zeroEnv (storeRequests (2 ^ 32))).rows 0 = 2 ^ 32 ∧
      (after zeroEnv (storeRequests (2 ^ 32))).getTableItemCount Config.systemAccountName
        Config.systemAccountName Config.systemAccountName = 0 :=
  table_count_wraps zeroEnv

end Database
end Safeos
