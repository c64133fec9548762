import Safeos.Chain.IteratorCache
import Safeos.Proofs.DatabaseSpec
import Mathlib

/-!
# The iterators a contract holds designate live rows

`WellFormed`: the two maps of an `iterator_cache` agree, an object's iterator being the place it
holds and a table's end iterator the one its place gives. `KvInv` adds what the `db_*_i64` API
keeps over the database: every object the cache holds is a live `key_value_object`, and its table
is cached. Every call keeps both (`kvInv_step`), so on every run of an action (`kvInv_run`) an
iterator that `get` accepts designates a row still in the database, no row has two iterators,
and `db_next_i64` always finds the end iterator of the table it leaves. With one iterator per
row, a step forward and a step back return the iterator the contract started from.
-/

namespace Safeos

theorem List.getElem?_concat_eq_some {α : Type} {l : List α} {x y : α} {j : Nat} :
    (l ++ [x])[j]? = some y ↔ l[j]? = some y ∨ (j = l.length ∧ x = y) := by
  by_cases hj : j < l.length
  · rw [List.getElem?_append_left hj]
    constructor
    · exact .inl
    · rintro (h | ⟨rfl, -⟩)
      · exact h
      · omega
  · rw [List.getElem?_append_right (by omega), List.getElem?_singleton,
      List.getElem?_eq_none (show l.length ≤ j by omega)]
    split_ifs with h0
    · simp only [Option.some_inj, false_or]
      constructor
      · rintro rfl
        exact ⟨by omega, rfl⟩
      · rintro ⟨-, rfl⟩
        rfl
    · simp only [false_or, false_iff, not_and]
      intro h
      omega

namespace IteratorCache

variable {α : Type} [DecidableEq α]

theorem endIteratorToIndex_indexToEndIterator (n : Nat) :
    endIteratorToIndex (indexToEndIterator n) = n := by
  simp only [endIteratorToIndex, indexToEndIterator]
  omega

theorem indexToEndIterator_lt (n : Nat) : indexToEndIterator n < -1 := by
  simp only [indexToEndIterator]
  omega

/-- The two maps of the cache agree. -/
structure WellFormed (c : IteratorCache α) : Prop where
  objects : ∀ obj i, c.objectToIterator.lookup obj = some i ↔
    0 ≤ i ∧ c.iteratorToObject[i.toNat]? = some (some obj)
  tableEnds : ∀ tid ei, c.tableCache.lookup tid = some ei →
    ∃ n, c.endIteratorToTable[n]? = some tid ∧ ei = indexToEndIterator n
  endTables : ∀ n tid, c.endIteratorToTable[n]? = some tid →
    c.tableCache.lookup tid = some (indexToEndIterator n)

theorem wellFormed_empty : (empty : IteratorCache α).WellFormed where
  objects obj i := by simp [empty]
  tableEnds tid ei := by simp [empty]
  endTables n tid := by simp [empty]

variable {c : IteratorCache α}

/-! ### `cache_table` -/

omit [DecidableEq α] in
theorem lookup_cacheTable (c : IteratorCache α) (tid : Nat) :
    (c.cacheTable tid).2.tableCache.lookup tid = some (c.cacheTable tid).1 := by
  unfold cacheTable
  split
  · assumption
  · exact AList.lookup_insert _

omit [DecidableEq α] in
theorem mem_cacheTable_self (c : IteratorCache α) (tid : Nat) :
    tid ∈ (c.cacheTable tid).2.tableCache :=
  AList.lookup_isSome.1 (by rw [lookup_cacheTable]; rfl)

omit [DecidableEq α] in
theorem mem_cacheTable {t : Nat} (tid : Nat) (ht : t ∈ c.tableCache) :
    t ∈ (c.cacheTable tid).2.tableCache := by
  unfold cacheTable
  split
  · exact ht
  · exact (AList.mem_insert _).2 (.inr ht)

omit [DecidableEq α] in
@[simp] theorem objectToIterator_cacheTable (tid : Nat) :
    (c.cacheTable tid).2.objectToIterator = c.objectToIterator := by
  unfold cacheTable
  split <;> rfl

omit [DecidableEq α] in
@[simp] theorem iteratorToObject_cacheTable (tid : Nat) :
    (c.cacheTable tid).2.iteratorToObject = c.iteratorToObject := by
  unfold cacheTable
  split <;> rfl

theorem WellFormed.cacheTable (hc : c.WellFormed) (tid : Nat) : (c.cacheTable tid).2.WellFormed := by
  unfold IteratorCache.cacheTable
  split
  · exact hc
  · rename_i hnone
    refine ⟨hc.objects, fun t ei ht => ?_, fun n t ht => ?_⟩
    · by_cases htid : t = tid
      · subst htid
        rw [AList.lookup_insert, Option.some_inj] at ht
        exact ⟨c.endIteratorToTable.length, List.getElem?_concat_length, ht.symm⟩
      · rw [AList.lookup_insert_ne htid] at ht
        obtain ⟨n, hn, rfl⟩ := hc.tableEnds t ei ht
        exact ⟨n, List.getElem?_concat_eq_some.2 (.inl hn), rfl⟩
    · -- an old place keeps its table, and the new last place is `tid`'s
      rcases List.getElem?_concat_eq_some.1 ht with hold | ⟨rfl, rfl⟩
      · have hlookup := hc.endTables n t hold
        have htid : t ≠ tid := by
          rintro rfl
          rw [hnone] at hlookup
          contradiction
        rw [AList.lookup_insert_ne htid, hlookup]
      · exact AList.lookup_insert _

/-! ### `add` -/

theorem lookup_add (c : IteratorCache α) (obj : α) :
    (c.add obj).2.objectToIterator.lookup obj = some (c.add obj).1 := by
  unfold add
  split
  · assumption
  · exact AList.lookup_insert _

theorem mem_add {k obj : α} : k ∈ (c.add obj).2.objectToIterator ↔ k = obj ∨ k ∈ c.objectToIterator := by
  unfold add
  split
  · rename_i i hi
    constructor
    · exact .inr
    · rintro (rfl | h)
      · exact AList.lookup_isSome.1 (by rw [hi]; rfl)
      · exact h
  · exact AList.mem_insert _

@[simp] theorem tableCache_add (obj : α) : (c.add obj).2.tableCache = c.tableCache := by
  unfold add
  split <;> rfl

@[simp] theorem endIteratorToTable_add (obj : α) :
    (c.add obj).2.endIteratorToTable = c.endIteratorToTable := by
  unfold add
  split <;> rfl

theorem WellFormed.add (hc : c.WellFormed) (obj : α) : (c.add obj).2.WellFormed := by
  unfold IteratorCache.add
  split
  · exact hc
  · rename_i hnone
    refine ⟨fun k i => ?_, hc.tableEnds, hc.endTables⟩
    simp only [List.getElem?_concat_eq_some]
    by_cases hk : k = obj
    · subst hk
      rw [AList.lookup_insert]
      constructor
      · rintro ⟨⟩
        simp
      · -- the object was in no place before, so it is at the new one
        rintro ⟨hi, hold | ⟨hlen, -⟩⟩
        · have hsome := (hc.objects k i).2 ⟨hi, hold⟩
          rw [hnone] at hsome
          contradiction
        · exact congrArg some (by omega)
    · rw [AList.lookup_insert_ne hk, hc.objects]
      constructor
      · rintro ⟨hi, hold⟩
        exact ⟨hi, .inl hold⟩
      · rintro ⟨hi, hold | ⟨-, hobj⟩⟩
        · exact ⟨hi, hold⟩
        · exact absurd (Option.some_inj.1 hobj).symm hk

/-! ### `get` and `remove` -/

/-- `get` accepts exactly the iterators of the objects the cache holds. -/
theorem WellFormed.get_eq_ok (hc : c.WellFormed) {it : Int} {obj : α} :
    c.get it = .ok obj ↔ c.objectToIterator.lookup obj = some it := by
  rw [hc.objects]
  unfold get
  simp only [Except.bind_eq_ok, eosioAssert_eq_ok, bne_iff_ne, ne_eq, decide_eq_true_eq]
  constructor
  · rintro ⟨-, -, -, hpos, -, -, hm⟩
    split at hm
    · rename_i h
      exact ⟨hpos, by rw [h, Except.pure_eq_ok.1 hm]⟩
    · contradiction
  · rintro ⟨hpos, hget⟩
    have hlt := (List.getElem?_eq_some_iff.1 hget).1
    refine ⟨(), by omega, (), hpos, (), by omega, ?_⟩
    rw [hget]
    rfl

theorem WellFormed.mem_of_get (hc : c.WellFormed) {it : Int} {obj : α} (h : c.get it = .ok obj) :
    obj ∈ c.objectToIterator :=
  AList.lookup_isSome.1 (by rw [hc.get_eq_ok.1 h]; rfl)

/-- An object has one iterator. -/
theorem WellFormed.get_inj (hc : c.WellFormed) {it it' : Int} {obj : α} (h : c.get it = .ok obj)
    (h' : c.get it' = .ok obj) : it' = it := by
  have := (hc.get_eq_ok.1 h).symm.trans (hc.get_eq_ok.1 h')
  exact (Option.some_inj.1 this).symm


theorem lookup_add_of_lookup {k obj : α} {i : Int} (h : c.objectToIterator.lookup k = some i) :
    (c.add obj).2.objectToIterator.lookup k = some i := by
  unfold add
  split
  · exact h
  · rename_i hnone
    have hk : k ≠ obj := by
      rintro rfl
      rw [hnone] at h
      contradiction
    rw [AList.lookup_insert_ne hk, h]

/-- `add` of an object the cache holds hands out its iterator and changes nothing. -/
theorem add_of_lookup {obj : α} {i : Int} (h : c.objectToIterator.lookup obj = some i) :
    c.add obj = (i, c) := by
  unfold add
  rw [h]

omit [DecidableEq α] in
theorem nonneg_of_get {it : Int} {obj : α} (h : c.get it = .ok obj) : 0 ≤ it := by
  unfold get at h
  simp only [Except.bind_eq_ok, eosioAssert_eq_ok, decide_eq_true_eq] at h
  obtain ⟨-, -, -, hpos, -⟩ := h
  exact hpos

/-- The cache once `remove` has dropped the iterator `it` of `obj`. -/
def removed (c : IteratorCache α) (it : Int) (obj : α) : IteratorCache α :=
  { c with
    iteratorToObject := c.iteratorToObject.set it.toNat none
    objectToIterator := c.objectToIterator.erase obj }

theorem WellFormed.remove_eq_ok (hc : c.WellFormed) {it : Int} {obj : α} (h : c.get it = .ok obj) :
    c.remove it = .ok (c.removed it obj) := by
  have hget := (hc.objects obj it).1 (hc.get_eq_ok.1 h)
  have hlt := (List.getElem?_eq_some_iff.1 hget.2).1
  unfold remove
  simp only [eosioAssert]
  rw [if_pos (by simp; omega), if_pos (by simpa using hget.1), if_pos (by simp; omega), hget.2]
  rfl

theorem WellFormed.removed (hc : c.WellFormed) {it : Int} {obj : α} (h : c.get it = .ok obj) :
    (c.removed it obj).WellFormed := by
  have hit := hc.get_eq_ok.1 h
  refine ⟨fun k i => ?_, hc.tableEnds, hc.endTables⟩
  simp only [IteratorCache.removed, List.getElem?_set]
  by_cases hk : k = obj
  · -- the object is in no place any more: its only one, `it`, is emptied
    subst hk
    rw [AList.lookup_erase]
    simp only [reduceCtorEq, false_iff, not_and]
    intro hi hplace
    by_cases hsame : it.toNat = i.toNat
    · rw [if_pos hsame] at hplace
      split_ifs at hplace
      simp at hplace
    · rw [if_neg hsame] at hplace
      have hat := (hc.objects _ i).2 ⟨hi, hplace⟩
      rw [hit, Option.some_inj] at hat
      exact hsame (by rw [hat])
  · rw [AList.lookup_erase_ne hk, hc.objects]
    by_cases hsame : it.toNat = i.toNat
    · -- the emptied place held `obj`, so it held no `k`
      have hobj := ((hc.objects obj it).1 hit).2
      rw [hsame] at hobj
      rw [if_pos hsame, hobj]
      split_ifs <;> simp [Ne.symm hk]
    · rw [if_neg hsame]

@[simp] theorem mem_removed {it : Int} {obj k : α} :
    k ∈ (c.removed it obj).objectToIterator ↔ k ≠ obj ∧ k ∈ c.objectToIterator :=
  AList.mem_erase

/-! ### End iterators -/

theorem WellFormed.findTableByEndIterator (hc : c.WellFormed) {tid : Nat} {ei : Int}
    (h : c.tableCache.lookup tid = some ei) : c.findTableByEndIterator ei = .ok (some tid) := by
  obtain ⟨n, hn, rfl⟩ := hc.tableEnds tid ei h
  simp [IteratorCache.findTableByEndIterator, eosioAssert, indexToEndIterator_lt,
    endIteratorToIndex_indexToEndIterator, hn]

omit [DecidableEq α] in
theorem lt_of_findTableByEndIterator {ei : Int} {x : Option Nat}
    (h : c.findTableByEndIterator ei = .ok x) : ei < -1 := by
  simp only [IteratorCache.findTableByEndIterator, Except.bind_eq_ok, eosioAssert_eq_ok,
    decide_eq_true_eq] at h
  obtain ⟨-, hlt, -⟩ := h
  exact hlt

theorem WellFormed.mem_of_findTableByEndIterator (hc : c.WellFormed) {ei : Int} {tid : Nat}
    (h : c.findTableByEndIterator ei = .ok (some tid)) : tid ∈ c.tableCache := by
  simp only [IteratorCache.findTableByEndIterator, Except.bind_eq_ok, Except.pure_eq_ok] at h
  obtain ⟨-, -, h⟩ := h
  exact AList.lookup_isSome.1 (by rw [hc.endTables _ _ h]; rfl)

end IteratorCache

namespace Database

open IteratorCache

variable {ctx : ActionContext} {db db' : Database}

theorem mem_keyValueIndex {k : RowKey} : k ∈ db.keyValueIndex ↔ k ∈ db.rows ∧ k.kind = .keyValue := by
  simp [keyValueIndex, List.mem_mergeSort, List.mem_filter, AList.mem_keys]

theorem nodup_keyValueIndex (db : Database) : db.keyValueIndex.Nodup :=
  (List.mergeSort_perm _ _).nodup_iff.2 (db.rows.keys_nodup.filter _)

/-! ### What the writes do to the rows -/

theorem findOrCreateTable_id {code scope table payer : Name} {db₁ : Database} {tid : Nat}
    {t : TableIdObject} (h : db.findOrCreateTable ctx code scope table payer = .ok (db₁, tid, t)) :
    tid = db.tableIdFor code scope table ∧ db₁.rows = db.rows := by
  unfold findOrCreateTable at h
  unfold tableIdFor
  rcases hf : db.findTable code scope table with _ | ⟨tid', t'⟩
  · -- a new table, of the next id, after the charge for it
    simp only [hf, Except.bind_eq_ok, Except.pure_eq_ok, Prod.mk.injEq] at h ⊢
    obtain ⟨db₂, hcharge, h1, h2, -⟩ := h
    obtain rfl := updateDbUsage_eq_ok hcharge
    rw [← h1, ← h2]
    exact ⟨rfl, rfl⟩
  · simp only [hf, Except.pure_eq_ok, Prod.mk.injEq] at h ⊢
    obtain ⟨rfl, rfl, rfl⟩ := h
    exact ⟨rfl, rfl⟩

theorem storePrimary_rows {kind : RowKind} {code scope table payer : Name} {id : Nat}
    {value : List UInt8} (h : db.storePrimary ctx kind code scope table payer id value = .ok db') :
    db'.rows = db.rows.insert ⟨kind, db.tableIdFor code scope table, id⟩ ⟨payer, value⟩ := by
  unfold storePrimary at h
  simp only [Except.bind_eq_ok, eosioAssert_eq_ok, Option.isNone_iff_eq_none] at h
  obtain ⟨⟨db₁, tid, t⟩, hfind, _, _, _, _, hcharge⟩ := h
  obtain rfl := updateDbUsage_eq_ok hcharge
  obtain ⟨rfl, hrows⟩ := findOrCreateTable_id hfind
  simp [hrows]

theorem updatePrimary_mem_rows {key : RowKey} {payer : Name} {value : List UInt8} {checkCode : Bool}
    (h : db.updatePrimary ctx key payer value checkCode = .ok db') {k : RowKey} :
    k ∈ db'.rows ↔ k ∈ db.rows := by
  unfold updatePrimary at h
  simp only [Except.bind_eq_ok, Except.pure_eq_ok] at h
  obtain ⟨obj, hobj, tableObj, htab, _, _, db₁, hbill, rfl⟩ := h
  obtain rfl := rebill_eq hbill
  have hkey : key ∈ db.rows := AList.lookup_isSome.1 (by rw [getRow_eq_ok hobj]; rfl)
  simp only [charge_rows, AList.mem_insert]
  constructor
  · rintro (rfl | h)
    · exact hkey
    · exact h
  · exact .inr

theorem removePrimary_rows {key : RowKey} {checkCode : Bool}
    (h : db.removePrimary ctx key checkCode = .ok db') : db'.rows = db.rows.erase key := by
  unfold removePrimary at h
  simp only [Except.bind_eq_ok] at h
  obtain ⟨obj, hobj, tableObj, htab, _, _, db₁, hcharge, h⟩ := h
  obtain rfl := updateDbUsage_eq_ok hcharge
  rcases eraseRow_eq_ok h with ⟨-, rfl⟩ | ⟨-, rfl⟩ <;> rfl

/-! ### The two steps of an iterator -/

variable {c c' : IteratorCache RowKey} {it i : Int} {p : Option Nat}

/-- `db_next_i64` hands out a new iterator only for the row after the iterator's, in its table. -/
theorem dbNextI64_cases (h : db.dbNextI64 c it = .ok (i, p, c')) :
    (c' = c ∧ p = none) ∨ ∃ obj itr, c.get it = .ok obj ∧
      Neighbors.next db.keyValueIndex obj = some itr ∧ itr.tId = obj.tId ∧ c.add itr = (i, c') ∧
      p = some itr.primaryKey := by
  unfold dbNextI64 at h
  split_ifs at h with hlt
  · simp only [Except.pure_eq_ok, Prod.mk.injEq] at h
    exact .inl ⟨h.2.2.symm, h.2.1.symm⟩
  simp only [Except.bind_eq_ok] at h
  obtain ⟨obj, hget, h⟩ := h
  split at h
  · rename_i itr hnext
    split_ifs at h with ht
    · simp only [Except.bind_eq_ok, Except.pure_eq_ok, Prod.mk.injEq] at h
      obtain ⟨_, -, -, rfl, rfl⟩ := h
      exact .inl ⟨rfl, rfl⟩
    · simp only [Except.pure_eq_ok, Prod.mk.injEq] at h
      obtain ⟨rfl, rfl, rfl⟩ := h
      exact .inr ⟨obj, itr, hget, hnext, by simpa using ht, rfl, rfl⟩
  · simp only [Except.bind_eq_ok, Except.pure_eq_ok, Prod.mk.injEq] at h
    obtain ⟨_, -, -, rfl, rfl⟩ := h
    exact .inl ⟨rfl, rfl⟩

theorem dbNextI64_of_next {obj itr : RowKey} (hget : c.get it = .ok obj)
    (hnext : Neighbors.next db.keyValueIndex obj = some itr) (ht : itr.tId = obj.tId) :
    db.dbNextI64 c it = .ok ((c.add itr).1, some itr.primaryKey, (c.add itr).2) := by
  have hit := nonneg_of_get hget
  unfold dbNextI64
  rw [if_neg (by omega)]
  simp [hget, hnext, ht]

/-- `db_previous_i64` hands out a new iterator only for the last row of a cached table, from its
end iterator, or for the row before the iterator's, in its table. -/
theorem dbPreviousI64_cases (h : db.dbPreviousI64 c it = .ok (i, p, c')) :
    (c' = c ∧ p = none) ∨
    (∃ tab itr, c.findTableByEndIterator it = .ok (some tab) ∧ itr ∈ db.keyValueIndex ∧
      itr.tId = tab ∧ c.add itr = (i, c') ∧ p = some itr.primaryKey) ∨
    (∃ obj itr, c.get it = .ok obj ∧ Neighbors.prev db.keyValueIndex obj = some itr ∧
      itr.tId = obj.tId ∧ c.add itr = (i, c') ∧ p = some itr.primaryKey) := by
  unfold dbPreviousI64 at h
  split_ifs at h with hlt
  · simp only [Except.bind_eq_ok] at h
    obtain ⟨tab?, hfind, h⟩ := h
    split at h
    · rename_i tab
      split at h
      · simp only [Except.pure_eq_ok, Prod.mk.injEq] at h
        exact .inl ⟨h.2.2.symm, h.2.1.symm⟩
      · rename_i itr hlast
        split_ifs at h with ht
        · simp only [Except.pure_eq_ok, Prod.mk.injEq] at h
          exact .inl ⟨h.2.2.symm, h.2.1.symm⟩
        · simp only [Except.pure_eq_ok, Prod.mk.injEq] at h
          obtain ⟨rfl, rfl, rfl⟩ := h
          have hmem : itr ∈ db.keyValueIndex :=
            (List.takeWhile_sublist _).subset (List.mem_of_getLast? hlast)
          exact .inr (.inl ⟨tab, itr, hfind, hmem, by simpa using ht, rfl, rfl⟩)
    · contradiction
  · simp only [Except.bind_eq_ok] at h
    obtain ⟨obj, hget, h⟩ := h
    split at h
    · simp only [Except.pure_eq_ok, Prod.mk.injEq] at h
      exact .inl ⟨h.2.2.symm, h.2.1.symm⟩
    · rename_i itr hprev
      split_ifs at h with ht
      · simp only [Except.pure_eq_ok, Prod.mk.injEq] at h
        exact .inl ⟨h.2.2.symm, h.2.1.symm⟩
      · simp only [Except.pure_eq_ok, Prod.mk.injEq] at h
        obtain ⟨rfl, rfl, rfl⟩ := h
        exact .inr (.inr ⟨obj, itr, hget, hprev, by simpa using ht, rfl, rfl⟩)

theorem dbPreviousI64_of_prev {obj itr : RowKey} (hget : c.get it = .ok obj)
    (hprev : Neighbors.prev db.keyValueIndex obj = some itr) (ht : itr.tId = obj.tId) :
    db.dbPreviousI64 c it = .ok ((c.add itr).1, some itr.primaryKey, (c.add itr).2) := by
  have hit := nonneg_of_get hget
  unfold dbPreviousI64
  rw [if_neg (by omega)]
  simp [hget, hprev, ht]

end Database

/-! ### What the `db_*_i64` calls of an action keep -/

open IteratorCache Database

/-- The iterator cache of an action agrees with itself and with the database: every row it
holds is a live `key_value_object` whose table it has cached. -/
structure KvInv (s : KvState) : Prop where
  wellFormed : s.cache.WellFormed
  live : ∀ k ∈ s.cache.objectToIterator, k ∈ s.db.keyValueIndex
  tableCached : ∀ k ∈ s.cache.objectToIterator, k.tId ∈ s.cache.tableCache

section KvInv

variable {ctx : ActionContext} {db db' : Database} {c c' : IteratorCache RowKey}

theorem kvInv_init (db : Database) : KvInv ⟨db, IteratorCache.empty⟩ where
  wellFormed := wellFormed_empty
  live k hk := by simp [IteratorCache.empty] at hk
  tableCached k hk := by simp [IteratorCache.empty] at hk

theorem KvInv.cacheTable (h : KvInv ⟨db, c⟩) (tid : Nat) : KvInv ⟨db, (c.cacheTable tid).2⟩ where
  wellFormed := h.wellFormed.cacheTable tid
  live k hk := h.live k (by simpa using hk)
  tableCached k hk := mem_cacheTable tid (h.tableCached k (by simpa using hk))

theorem KvInv.add (h : KvInv ⟨db, c⟩) {k : RowKey} (hk : k ∈ db.keyValueIndex)
    (ht : k.tId ∈ c.tableCache) : KvInv ⟨db, (c.add k).2⟩ where
  wellFormed := h.wellFormed.add k
  live k' hk' := (mem_add.1 hk').elim (fun hkk => hkk ▸ hk) (h.live k')
  tableCached k' hk' := by
    rw [tableCache_add]
    exact (mem_add.1 hk').elim (fun hkk => hkk ▸ ht) (h.tableCached k')

/-- A write that keeps every row keeps the invariant. -/
theorem KvInv.of_rows (h : KvInv ⟨db, c⟩) (hrows : ∀ k, k ∈ db.rows → k ∈ db'.rows) :
    KvInv ⟨db', c⟩ where
  wellFormed := h.wellFormed
  live k hk := by
    obtain ⟨hrow, hkind⟩ := mem_keyValueIndex.1 (h.live k hk)
    exact mem_keyValueIndex.2 ⟨hrows k hrow, hkind⟩
  tableCached := h.tableCached

/-- `cache_table` then: the invariant holds, and the table is cached. -/
theorem KvInv.of_cacheTable (h : KvInv ⟨db, c⟩) {tid : Nat} {e : Int} {c₁ : IteratorCache RowKey}
    (hct : c.cacheTable tid = (e, c₁)) : KvInv ⟨db, c₁⟩ ∧ tid ∈ c₁.tableCache := by
  have h₁ := h.cacheTable tid
  have hcached := mem_cacheTable_self c tid
  rw [hct] at h₁ hcached
  exact ⟨h₁, hcached⟩

theorem dbFindI64_kvInv (h : KvInv ⟨db, c⟩) (code scope table : Name) (id : Nat) :
    KvInv ⟨db, (db.dbFindI64 c code scope table id).2⟩ := by
  unfold dbFindI64
  split
  · exact h
  · rename_i tid t _
    rcases hct : c.cacheTable tid with ⟨e, c₁⟩
    obtain ⟨h₁, hcached⟩ := h.of_cacheTable hct
    dsimp only
    split_ifs with hnone
    · exact h₁
    · -- the row exists: it is handed out
      have hrow : (⟨.keyValue, tid, id⟩ : RowKey) ∈ db.keyValueIndex :=
        mem_keyValueIndex.2 ⟨AList.lookup_isSome.1 (Option.isSome_iff_ne_none.2 (by simpa using hnone)), rfl⟩
      exact h₁.add hrow hcached

theorem boundI64_kvInv (h : KvInv ⟨db, c⟩) (after : Nat → RowKey → Bool) (code scope table : Name) :
    KvInv ⟨db, (db.boundI64 after c code scope table).2⟩ := by
  unfold boundI64
  split
  · exact h
  · rename_i tid t _
    rcases hct : c.cacheTable tid with ⟨e, c₁⟩
    obtain ⟨h₁, hcached⟩ := h.of_cacheTable hct
    dsimp only
    split
    · exact h₁
    · rename_i itr hfind
      split_ifs with ht
      · exact h₁
      · have htid : itr.tId = tid := by simpa using ht
        exact h₁.add (List.mem_of_find?_eq_some hfind) (htid ▸ hcached)

theorem dbEndI64_kvInv (h : KvInv ⟨db, c⟩) (code scope table : Name) :
    KvInv ⟨db, (db.dbEndI64 c code scope table).2⟩ := by
  unfold dbEndI64
  split
  · exact h
  · exact h.cacheTable _

theorem dbNextI64_kvInv (h : KvInv ⟨db, c⟩) {it i : Int} {p : Option Nat}
    (hn : db.dbNextI64 c it = .ok (i, p, c')) : KvInv ⟨db, c'⟩ := by
  rcases dbNextI64_cases hn with ⟨rfl, -⟩ | ⟨obj, itr, hget, hnext, ht, hadd, -⟩
  · exact h
  · -- the next row is in the index, and in the table of a row the cache holds
    have hobj := h.wellFormed.mem_of_get hget
    have := h.add (Neighbors.mem_of_next hnext) (ht ▸ h.tableCached obj hobj)
    rwa [hadd] at this

theorem dbPreviousI64_kvInv (h : KvInv ⟨db, c⟩) {it i : Int} {p : Option Nat}
    (hp : db.dbPreviousI64 c it = .ok (i, p, c')) : KvInv ⟨db, c'⟩ := by
  rcases dbPreviousI64_cases hp with ⟨rfl, -⟩ | ⟨tab, itr, hfind, hmem, ht, hadd, -⟩ |
    ⟨obj, itr, hget, hprev, ht, hadd, -⟩
  · exact h
  · have := h.add hmem (ht ▸ h.wellFormed.mem_of_findTableByEndIterator hfind)
    rwa [hadd] at this
  · have hobj := h.wellFormed.mem_of_get hget
    have := h.add (Neighbors.mem_of_prev hprev) (ht ▸ h.tableCached obj hobj)
    rwa [hadd] at this

theorem dbStoreI64Iterator_kvInv (h : KvInv ⟨db, c⟩) {code scope table payer : Name} {id : Nat}
    {value : List UInt8} {i : Int}
    (hs : db.dbStoreI64Iterator ctx c code scope table payer id value = .ok (i, db', c')) :
    KvInv ⟨db', c'⟩ := by
  unfold dbStoreI64Iterator at hs
  simp only [Except.bind_eq_ok, Except.pure_eq_ok, Prod.mk.injEq] at hs
  obtain ⟨db₁, hstore, -, rfl, rfl⟩ := hs
  have hrows := storePrimary_rows hstore
  -- the old rows stay, and the new one is in the table just cached
  have h₁ : KvInv ⟨db₁, c⟩ := h.of_rows fun k hk => by
    rw [hrows]
    exact (AList.mem_insert _).2 (.inr hk)
  have hnew : (⟨.keyValue, db.tableIdFor code scope table, id⟩ : RowKey) ∈ db₁.keyValueIndex :=
    mem_keyValueIndex.2 ⟨by rw [hrows]; exact (AList.mem_insert _).2 (.inl rfl), rfl⟩
  exact (h₁.cacheTable _).add hnew (mem_cacheTable_self c _)

theorem dbUpdateI64Iterator_kvInv (h : KvInv ⟨db, c⟩) {it : Int} {payer : Name}
    {value : List UInt8} {checkCode : Bool}
    (hu : db.dbUpdateI64Iterator ctx c it payer value checkCode = .ok db') : KvInv ⟨db', c⟩ := by
  unfold dbUpdateI64Iterator at hu
  simp only [Except.bind_eq_ok] at hu
  obtain ⟨obj, -, -, -, hupdate⟩ := hu
  exact h.of_rows fun k hk => (updatePrimary_mem_rows hupdate).2 hk

theorem dbRemoveI64Iterator_kvInv (h : KvInv ⟨db, c⟩) {it : Int} {checkCode : Bool}
    (hr : db.dbRemoveI64Iterator ctx c it checkCode = .ok (db', c')) : KvInv ⟨db', c'⟩ := by
  unfold dbRemoveI64Iterator at hr
  simp only [Except.bind_eq_ok, Except.pure_eq_ok, Prod.mk.injEq] at hr
  obtain ⟨obj, hget, -, -, db₁, hremove, c₁, hc₁, rfl, rfl⟩ := hr
  rw [h.wellFormed.remove_eq_ok hget, Except.ok.injEq] at hc₁
  subst hc₁
  have hrows := removePrimary_rows hremove
  -- the row goes with its only iterator
  refine ⟨h.wellFormed.removed hget, fun k hk => ?_, fun k hk => h.tableCached k (mem_removed.1 hk).2⟩
  obtain ⟨hne, hk⟩ := mem_removed.1 hk
  obtain ⟨hrow, hkind⟩ := mem_keyValueIndex.1 (h.live k hk)
  exact mem_keyValueIndex.2 ⟨by rw [hrows]; exact AList.mem_erase.2 ⟨hne, hrow⟩, hkind⟩

/-- Every call keeps the invariant. -/
theorem kvInv_step {s s' : KvState} (h : KvInv s) {call : KvCall} (hs : kvStep ctx s call = .ok s') :
    KvInv s' := by
  obtain ⟨db, c⟩ := s
  cases call with
  | dbStoreI64 code scope table payer id value =>
    simp only [kvStep, Except.bind_eq_ok, Except.pure_eq_ok] at hs
    obtain ⟨⟨_, db', c'⟩, hstore, rfl⟩ := hs
    exact dbStoreI64Iterator_kvInv h hstore
  | dbUpdateI64 it payer value checkCode =>
    simp only [kvStep, Except.bind_eq_ok, Except.pure_eq_ok] at hs
    obtain ⟨db', hupdate, rfl⟩ := hs
    exact dbUpdateI64Iterator_kvInv h hupdate
  | dbRemoveI64 it checkCode =>
    simp only [kvStep, Except.bind_eq_ok, Except.pure_eq_ok] at hs
    obtain ⟨⟨db', c'⟩, hremove, rfl⟩ := hs
    exact dbRemoveI64Iterator_kvInv h hremove
  | dbGetI64 it bufferSize =>
    simp only [kvStep, Except.bind_eq_ok, Except.pure_eq_ok] at hs
    obtain ⟨_, -, rfl⟩ := hs
    exact h
  | dbNextI64 it =>
    simp only [kvStep, Except.bind_eq_ok, Except.pure_eq_ok] at hs
    obtain ⟨⟨_, _, c'⟩, hnext, rfl⟩ := hs
    exact dbNextI64_kvInv h hnext
  | dbPreviousI64 it =>
    simp only [kvStep, Except.bind_eq_ok, Except.pure_eq_ok] at hs
    obtain ⟨⟨_, _, c'⟩, hprev, rfl⟩ := hs
    exact dbPreviousI64_kvInv h hprev
  | dbFindI64 code scope table id =>
    simp only [kvStep, Except.pure_eq_ok] at hs
    exact hs ▸ dbFindI64_kvInv h code scope table id
  | dbLowerboundI64 code scope table id =>
    simp only [kvStep, Except.pure_eq_ok] at hs
    exact hs ▸ boundI64_kvInv h _ code scope table
  | dbUpperboundI64 code scope table id =>
    simp only [kvStep, Except.pure_eq_ok] at hs
    exact hs ▸ boundI64_kvInv h _ code scope table
  | dbEndI64 code scope table =>
    simp only [kvStep, Except.pure_eq_ok] at hs
    exact hs ▸ dbEndI64_kvInv h code scope table

/-- Run rule: the calls of an action, from the database it starts on and a new cache. -/
theorem kvInv_run (ctx : ActionContext) (db : Database) {calls : List KvCall} {s : KvState}
    (hrun : Transition.runAll (kvStep ctx) ⟨db, IteratorCache.empty⟩ calls = .ok s) : KvInv s :=
  Transition.Preserves.runAll (fun _ _ _ hs hstep => kvInv_step hs hstep) (kvInv_init db) hrun

end KvInv

/-! ### Iterators on every run -/

section Run

variable {ctx : ActionContext} {db : Database} {c c' : IteratorCache RowKey}

/-- `db_next_i64` from a row the cache holds finds the end iterator of its table. -/
theorem dbNextI64_ok (h : KvInv ⟨db, c⟩) {it : Int} {obj : RowKey} (hget : c.get it = .ok obj) :
    ∃ r, db.dbNextI64 c it = .ok r := by
  obtain ⟨ei, hei⟩ : ∃ ei, c.tableCache.lookup obj.tId = some ei :=
    Option.isSome_iff_exists.1 (AList.lookup_isSome.2 (h.tableCached obj (h.wellFormed.mem_of_get hget)))
  have hend : c.getEndIteratorByTableId obj.tId = .ok ei := by
    simp [IteratorCache.getEndIteratorByTableId, hei]
  have hit := nonneg_of_get hget
  -- the next row is of the same table, of another, or there is none
  rcases hnx : Neighbors.next db.keyValueIndex obj with _ | itr
  · exact ⟨(ei, none, c), by simp [dbNextI64, if_neg (show ¬it < -1 by omega), hget, hnx, hend]⟩
  · by_cases ht : itr.tId = obj.tId
    · exact ⟨_, dbNextI64_of_next hget hnx ht⟩
    · exact ⟨(ei, none, c),
        by simp [dbNextI64, if_neg (show ¬it < -1 by omega), hget, hnx, ht, hend]⟩

/-- On every run of an action's `db_*_i64` calls, an iterator the cache accepts designates a
live `key_value_object` row, the only iterator of that row; `db_get_i64` reads it, and
`db_next_i64` from it finds the next row or the end iterator of its table. -/
theorem iterators_designate_live_rows (ctx : ActionContext) (db : Database) (calls : List KvCall)
    {s : KvState} (hrun : Transition.runAll (kvStep ctx) ⟨db, IteratorCache.empty⟩ calls = .ok s)
    {it : Int} {k : RowKey} (hget : s.cache.get it = .ok k) :
    k.kind = .keyValue ∧ k ∈ s.db.rows ∧ (∀ it', s.cache.get it' = .ok k → it' = it) ∧
      (∀ bufferSize, ∃ r, s.db.dbGetI64 s.cache it bufferSize = .ok r) ∧
      ∃ r, s.db.dbNextI64 s.cache it = .ok r := by
  have hinv := kvInv_run ctx db hrun
  obtain ⟨hrow, hkind⟩ := mem_keyValueIndex.1 (hinv.live k (hinv.wellFormed.mem_of_get hget))
  refine ⟨hkind, hrow, fun it' h' => hinv.wellFormed.get_inj hget h', fun bufferSize => ?_,
    dbNextI64_ok hinv hget⟩
  -- the row is there to read
  obtain ⟨r, hr⟩ := Option.isSome_iff_exists.1 (AList.lookup_isSome.2 hrow)
  have hread : s.db.getRow k = .ok r := by
    simp [Database.getRow, hr]
  by_cases hb : bufferSize = 0
  · exact ⟨(r.value.length, []), by simp [dbGetI64, hget, hread, hb]⟩
  · exact ⟨(min bufferSize r.value.length, r.value.take (min bufferSize r.value.length)),
      by simp [dbGetI64, hget, hread, hb]⟩

/-- A table `(1, 2, 3)` of id 0 with the rows of primary keys 5 and 9. -/
def twoRowDb : Database :=
  { Database.init with
    tables := (∅ : AList fun _ : Nat => TableIdObject).insert 0 ⟨⟨1⟩, ⟨2⟩, ⟨3⟩, ⟨1⟩, 2⟩
    nextTableId := 1
    rows := ((∅ : AList fun _ : RowKey => ContractRow).insert ⟨.keyValue, 0, 9⟩ ⟨⟨1⟩, [8]⟩).insert
      ⟨.keyValue, 0, 5⟩ ⟨⟨1⟩, [7]⟩ }

/-- The row of primary key 5. -/
def foundRow : RowKey := ⟨.keyValue, 0, 5⟩

/-- The cache after `db_find_i64` of `foundRow`: the table's end iterator -2, the row's iterator 0. -/
def foundRowCache : IteratorCache RowKey :=
  ⟨(∅ : AList fun _ : Nat => Int).insert 0 (-2), [0], [some foundRow],
    (∅ : AList fun _ : RowKey => Int).insert foundRow 0⟩

/-- An action of account 1, not privileged. -/
def sampleContext : ActionContext := ⟨⟨1⟩, ⟨1⟩, [], false, false, false, false, 0, 0⟩

theorem runAll_find_twoRowDb :
    Transition.runAll (kvStep sampleContext) ⟨twoRowDb, IteratorCache.empty⟩
      [.dbFindI64 ⟨1⟩ ⟨2⟩ ⟨3⟩ 5] = .ok ⟨twoRowDb, foundRowCache⟩ := rfl

theorem iterators_designate_live_rows_find :
    Transition.runAll (kvStep sampleContext) ⟨twoRowDb, IteratorCache.empty⟩
        [.dbFindI64 ⟨1⟩ ⟨2⟩ ⟨3⟩ 5] = .ok ⟨twoRowDb, foundRowCache⟩ ∧
      foundRowCache.get 0 = .ok foundRow ∧
      (foundRow.kind = .keyValue ∧ foundRow ∈ twoRowDb.rows ∧
        (∀ it', foundRowCache.get it' = .ok foundRow → it' = 0) ∧
        (∀ bufferSize, ∃ r, twoRowDb.dbGetI64 foundRowCache 0 bufferSize = .ok r) ∧
        ∃ r, twoRowDb.dbNextI64 foundRowCache 0 = .ok r) := by
  have hget : foundRowCache.get 0 = .ok foundRow := rfl
  exact ⟨runAll_find_twoRowDb, hget,
    iterators_designate_live_rows sampleContext twoRowDb _ runAll_find_twoRowDb hget⟩

/-- A step forward then back, or back then forward, between two rows of a table returns the
iterator the contract started from, and its row's primary key. -/
theorem next_previous_round_trip (ctx : ActionContext) (db : Database) (calls : List KvCall)
    {s : KvState} (hrun : Transition.runAll (kvStep ctx) ⟨db, IteratorCache.empty⟩ calls = .ok s)
    {it : Int} {k : RowKey} (hget : s.cache.get it = .ok k) :
    (∀ it' pk c', s.db.dbNextI64 s.cache it = .ok (it', some pk, c') →
      s.db.dbPreviousI64 c' it' = .ok (it, some k.primaryKey, c')) ∧
    (∀ it' pk c', s.db.dbPreviousI64 s.cache it = .ok (it', some pk, c') →
      s.db.dbNextI64 c' it' = .ok (it, some k.primaryKey, c')) := by
  have hinv := kvInv_run ctx db hrun
  have hlook := hinv.wellFormed.get_eq_ok.1 hget
  -- the new iterator designates the row it was handed out for, and `k` keeps `it`
  have hafter : ∀ {itr it' c'}, s.cache.add itr = (it', c') →
      c'.get it' = .ok itr ∧ c'.objectToIterator.lookup k = some it := by
    intro itr it' c' hadd
    have hwf := hinv.wellFormed.add itr
    have hnew := lookup_add s.cache itr
    have hold : (s.cache.add itr).2.objectToIterator.lookup k = some it :=
      lookup_add_of_lookup hlook
    rw [hadd] at hwf hnew hold
    exact ⟨hwf.get_eq_ok.2 hnew, hold⟩
  constructor
  · intro it' pk c' hn
    rcases dbNextI64_cases hn with ⟨-, hp⟩ | ⟨obj, itr, hget', hnext, ht, hadd, -⟩
    · cases hp
    · obtain rfl : obj = k := Except.ok.inj (hget'.symm.trans hget)
      obtain ⟨hgetItr, hk⟩ := hafter hadd
      rw [dbPreviousI64_of_prev hgetItr (Neighbors.prev_next (nodup_keyValueIndex _) hnext) ht.symm,
        add_of_lookup hk]
  · intro it' pk c' hp
    rcases dbPreviousI64_cases hp with ⟨-, hnone⟩ | ⟨tab, -, hfind, -⟩ |
      ⟨obj, itr, hget', hprev, ht, hadd, -⟩
    · cases hnone
    · -- a row's iterator is no end iterator
      exact absurd (lt_of_findTableByEndIterator hfind) (by have := nonneg_of_get hget; omega)
    · obtain rfl : obj = k := Except.ok.inj (hget'.symm.trans hget)
      obtain ⟨hgetItr, hk⟩ := hafter hadd
      have hmem := hinv.live obj (hinv.wellFormed.mem_of_get hget)
      rw [dbNextI64_of_next hgetItr (Neighbors.next_prev (nodup_keyValueIndex _) hmem hprev) ht.symm,
        add_of_lookup hk]

theorem next_previous_round_trip_find :
    Transition.runAll (kvStep sampleContext) ⟨twoRowDb, IteratorCache.empty⟩
        [.dbFindI64 ⟨1⟩ ⟨2⟩ ⟨3⟩ 5] = .ok ⟨twoRowDb, foundRowCache⟩ ∧
      foundRowCache.get 0 = .ok foundRow ∧
      ((∀ it' pk c', twoRowDb.dbNextI64 foundRowCache 0 = .ok (it', some pk, c') →
        twoRowDb.dbPreviousI64 c' it' = .ok (0, some foundRow.primaryKey, c')) ∧
      (∀ it' pk c', twoRowDb.dbPreviousI64 foundRowCache 0 = .ok (it', some pk, c') →
        twoRowDb.dbNextI64 c' it' = .ok (0, some foundRow.primaryKey, c'))) := by
  have hget : foundRowCache.get 0 = .ok foundRow := rfl
  exact ⟨runAll_find_twoRowDb, hget,
    next_previous_round_trip sampleContext twoRowDb _ runAll_find_twoRowDb hget⟩

end Run

end Safeos
