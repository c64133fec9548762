import Safeos.Proofs.IteratorCacheInv

/-!
# The i64 API as an ordered view of a table

`key_value_index` is ordered `by_scope_primary`, by table and then by primary key
(`pairwise_keyValueIndex`). On it `db_lowerbound_i64` and `db_upperbound_i64` hand out the
iterator of the first row of the table with a primary key at least (above) the bound, or the
table's end iterator when there is none (`bounds_are_first_rows`); `db_end_i64` hands out the end
iterator, and `db_previous_i64` from an end iterator the table's last row, or -1 when the table has
no row (`previous_from_end_is_last_row`).
-/

namespace Safeos

open IteratorCache

namespace Database

/-! ### What the searches should find -/

/-- `k` is the row of table `tid` with the least primary key that passes `q`. -/
def IsFirstRow (db : Database) (tid : Nat) (q : Nat → Bool) (k : RowKey) : Prop :=
  k ∈ db.rows ∧ k.kind = .keyValue ∧ k.tId = tid ∧ q k.primaryKey = true ∧
    ∀ k' ∈ db.rows, k'.kind = .keyValue → k'.tId = tid → q k'.primaryKey = true →
      k.primaryKey ≤ k'.primaryKey

/-- `k` is the row of table `tid` with the greatest primary key that passes `q`. -/
def IsLastRow (db : Database) (tid : Nat) (q : Nat → Bool) (k : RowKey) : Prop :=
  k ∈ db.rows ∧ k.kind = .keyValue ∧ k.tId = tid ∧ q k.primaryKey = true ∧
    ∀ k' ∈ db.rows, k'.kind = .keyValue → k'.tId = tid → q k'.primaryKey = true →
      k'.primaryKey ≤ k.primaryKey

/-- No row of table `tid` has a primary key that passes `q`. -/
def NoRow (db : Database) (tid : Nat) (q : Nat → Bool) : Prop :=
  ∀ k ∈ db.rows, k.kind = .keyValue → k.tId = tid → q k.primaryKey = false

/-- What a bound search should hand out: the iterator of the first row of table `tid` that passes
`q`, or else the table's end iterator. -/
def IsBoundResult (db : Database) (tid : Nat) (q : Nat → Bool) (r : Int × IteratorCache RowKey) :
    Prop :=
  (∃ k, db.IsFirstRow tid q k ∧ r.2.get r.1 = .ok k) ∨
    (db.NoRow tid q ∧ r.2.findTableByEndIterator r.1 = .ok (some tid))

variable {db : Database} {c : IteratorCache RowKey}

/-! ### The order of the index -/

theorem pairwise_keyValueIndex (db : Database) :
    db.keyValueIndex.Pairwise fun a b =>
      a.tId < b.tId ∨ (a.tId = b.tId ∧ a.primaryKey ≤ b.primaryKey) := by
  unfold keyValueIndex
  refine (List.pairwise_mergeSort ?_ ?_ _).imp ?_
  · intro a b c hab hbc
    simp only [Bool.or_eq_true, Bool.and_eq_true, decide_eq_true_eq, beq_iff_eq] at hab hbc ⊢
    omega
  · intro a b
    simp only [Bool.or_eq_true, Bool.and_eq_true, decide_eq_true_eq, beq_iff_eq]
    omega
  · intro a b h
    simpa using h

/-- The first row at or after a bound in `by_scope_primary` order is the first row of the table
that passes the bound, unless it is of a later table, and then no row of the table passes. -/
theorem find?_first_row {tid : Nat} {q : Nat → Bool} {x : RowKey}
    (h : db.keyValueIndex.find? (fun k => tid < k.tId || (tid == k.tId && q k.primaryKey)) =
      some x) :
    (x.tId = tid ∧ db.IsFirstRow tid q x) ∨ (x.tId ≠ tid ∧ db.NoRow tid q) := by
  have hpx := List.find?_some h
  obtain ⟨hrow, hkind⟩ := mem_keyValueIndex.1 (List.mem_of_find?_eq_some h)
  -- every row of the table that passes comes at or after `x`
  have hafter : ∀ k ∈ db.rows, k.kind = .keyValue → k.tId = tid → q k.primaryKey = true →
      k = x ∨ x.tId < k.tId ∨ (x.tId = k.tId ∧ x.primaryKey ≤ k.primaryKey) := by
    intro k hk hkk ht hq
    exact Neighbors.find?_eq_or_rel (pairwise_keyValueIndex db) h (mem_keyValueIndex.2 ⟨hk, hkk⟩)
      (by simp [ht, hq])
  by_cases ht : x.tId = tid
  · subst ht
    refine .inl ⟨rfl, hrow, hkind, rfl, by simpa using hpx, fun k hk hkk ht hq => ?_⟩
    rcases hafter k hk hkk ht hq with rfl | hr | hr
    · exact le_refl _
    · omega
    · exact hr.2
  · -- `x` is of a later table
    have hlt : tid < x.tId := by
      simp only [Bool.or_eq_true, Bool.and_eq_true, decide_eq_true_eq, beq_iff_eq] at hpx
      omega
    refine .inr ⟨ht, fun k hk hkk htk => ?_⟩
    cases hq : q k.primaryKey
    · rfl
    · rcases hafter k hk hkk htk hq with rfl | hr | hr <;> omega

theorem find?_eq_none_noRow {tid : Nat} {q : Nat → Bool}
    (h : db.keyValueIndex.find? (fun k => tid < k.tId || (tid == k.tId && q k.primaryKey)) =
      none) :
    db.NoRow tid q := by
  intro k hk hkk ht
  have := List.find?_eq_none.1 h k (mem_keyValueIndex.2 ⟨hk, hkk⟩)
  simpa [ht] using this

/-! ### The searches -/

/-- `db_lowerbound_i64` and `db_upperbound_i64` on a found table, from a well-formed cache. -/
theorem boundI64_spec (hc : c.WellFormed) {code scope table : Name} {tid : Nat}
    {t : TableIdObject} (hf : db.findTable code scope table = some (tid, t)) (q : Nat → Bool) :
    db.IsBoundResult tid q (db.boundI64 (fun tid k => tid < k.tId || (tid == k.tId && q k.primaryKey))
      c code scope table) := by
  unfold boundI64
  rw [hf]
  dsimp only
  generalize hct : c.cacheTable tid = r
  obtain ⟨ei, c₁⟩ := r
  dsimp only
  have hc₁ : c₁.WellFormed := by
    have := hc.cacheTable tid
    rwa [hct] at this
  have hend : c₁.findTableByEndIterator ei = .ok (some tid) := by
    have := lookup_cacheTable c tid
    rw [hct] at this
    exact hc₁.findTableByEndIterator this
  rcases hfind : db.keyValueIndex.find? _ with _ | x
  · dsimp only
    exact .inr ⟨find?_eq_none_noRow hfind, hend⟩
  · rcases find?_first_row hfind with ⟨ht, hfirst⟩ | ⟨ht, hno⟩
    · -- the row's iterator, new or the one it already has
      have hget : (c₁.add x).2.get (c₁.add x).1 = .ok x :=
        (hc₁.add x).get_eq_ok.2 (lookup_add c₁ x)
      refine .inl ⟨x, hfirst, ?_⟩
      simpa [ht] using hget
    · refine .inr ⟨hno, ?_⟩
      simpa [ht] using hend

/-- `db_end_i64` on a found table hands out its end iterator. -/
theorem dbEndI64_spec (hc : c.WellFormed) {code scope table : Name} {tid : Nat}
    {t : TableIdObject} (hf : db.findTable code scope table = some (tid, t)) :
    (db.dbEndI64 c code scope table).2.findTableByEndIterator (db.dbEndI64 c code scope table).1 =
      .ok (some tid) := by
  unfold dbEndI64
  rw [hf]
  exact (hc.cacheTable tid).findTableByEndIterator (lookup_cacheTable c tid)

/-- `db_previous_i64` from the end iterator of table `tab`: the last row of the index up to
`tab`'s is the table's last row, or of an earlier table when `tab` has none. -/
theorem dbPreviousI64_of_end (hc : c.WellFormed) {ei : Int} {tab : Nat}
    (hend : c.findTableByEndIterator ei = .ok (some tab)) :
    ∃ i p c', db.dbPreviousI64 c ei = .ok (i, p, c') ∧
      ((∃ k, db.IsLastRow tab (fun _ => true) k ∧ p = some k.primaryKey ∧ c'.get i = .ok k) ∨
        (db.NoRow tab (fun _ => true) ∧ i = -1 ∧ p = none ∧ c' = c)) := by
  have hlt := lt_of_findTableByEndIterator hend
  have hl := pairwise_keyValueIndex db
  -- every row of `tab` is in the part of the index up to `tab`
  have hin : ∀ k ∈ db.rows, k.kind = .keyValue → k.tId = tab →
      k ∈ db.keyValueIndex.takeWhile (·.tId ≤ tab) := by
    intro k hk hkk ht
    refine Neighbors.mem_takeWhile_of_rel hl (fun a b hab hb => ?_)
      (mem_keyValueIndex.2 ⟨hk, hkk⟩) (by simp [ht])
    simp only [decide_eq_true_eq] at hb ⊢
    omega
  have hl' : (db.keyValueIndex.takeWhile (·.tId ≤ tab)).Pairwise _ :=
    hl.sublist (List.takeWhile_prefix _).sublist
  rcases hlast : (db.keyValueIndex.takeWhile (·.tId ≤ tab)).getLast? with _ | x
  · -- nothing up to `tab`
    refine ⟨-1, none, c, by simp [dbPreviousI64, hlt, hend, hlast],
      .inr ⟨fun k hk hkk ht => ?_, rfl, rfl, rfl⟩⟩
    exact absurd (List.getLast?_eq_none_iff.1 hlast) (List.ne_nil_of_mem (hin k hk hkk ht))
  · have hx := List.mem_of_getLast? hlast
    have hxt : x.tId ≤ tab := by simpa using List.mem_takeWhile_imp hx
    obtain ⟨hrow, hkind⟩ := mem_keyValueIndex.1 ((List.takeWhile_prefix _).subset hx)
    by_cases ht : x.tId = tab
    · -- `x` is the table's last row
      refine ⟨(c.add x).1, some x.primaryKey, (c.add x).2,
        by simp [dbPreviousI64, hlt, hend, hlast, ht],
        .inl ⟨x, ⟨hrow, hkind, ht, rfl, fun k hk hkk htk _ => ?_⟩, rfl,
          (hc.add x).get_eq_ok.2 (lookup_add c x)⟩⟩
      rcases Neighbors.getLast?_eq_or_rel hl' hlast (hin k hk hkk htk) with rfl | hr
      · exact le_refl _
      · omega
    · -- the last row up to `tab` is of an earlier table, so `tab` has none
      refine ⟨-1, none, c, by simp [dbPreviousI64, hlt, hend, hlast, ht],
        .inr ⟨fun k hk hkk htk => ?_, rfl, rfl, rfl⟩⟩
      rcases Neighbors.getLast?_eq_or_rel hl' hlast (hin k hk hkk htk) with rfl | hr <;> omega

/-! ### A step from a row -/

section Step

variable {k itr : RowKey}

/-- Two rows of one table in the index differ in their primary keys. -/
theorem primaryKey_ne {a b : RowKey} (ha : a ∈ db.keyValueIndex) (hb : b ∈ db.keyValueIndex)
    (ht : a.tId = b.tId) (hne : a ≠ b) : a.primaryKey ≠ b.primaryKey := by
  have hka := (mem_keyValueIndex.1 ha).2
  have hkb := (mem_keyValueIndex.1 hb).2
  intro hp
  obtain ⟨ka, ta, pa⟩ := a
  obtain ⟨kb, tb, pb⟩ := b
  simp only at ht hp hka hkb
  subst ht hp hka hkb
  exact hne rfl

/-- Two neighbours of one table: the second has the greater primary key. -/
theorem primaryKey_lt_of_split {as bs : List RowKey} {a b : RowKey}
    (hl : db.keyValueIndex = as ++ a :: b :: bs) (ht : a.tId = b.tId) :
    a.primaryKey < b.primaryKey := by
  have hs := pairwise_keyValueIndex db
  have hnd := nodup_keyValueIndex db
  rw [hl] at hs hnd
  have hr := Neighbors.rel_of_split hs
  have ha : a ∈ db.keyValueIndex := by simp [hl]
  have hb : b ∈ db.keyValueIndex := by simp [hl]
  have hne := primaryKey_ne ha hb ht (Neighbors.ne_of_nodup_split hnd)
  omega

theorem next_isFirstRow (h : Neighbors.next db.keyValueIndex k = some itr) (ht : itr.tId = k.tId) :
    db.IsFirstRow k.tId (fun pk => decide (k.primaryKey < pk)) itr := by
  obtain ⟨as, bs, hl, -⟩ := Neighbors.exists_append_of_next h
  have hlt := primaryKey_lt_of_split hl ht.symm
  have hs := pairwise_keyValueIndex db
  obtain ⟨hrow, hkind⟩ := mem_keyValueIndex.1 (Neighbors.mem_of_next h)
  refine ⟨hrow, hkind, ht, by simpa using hlt, fun k' hk' hkk' ht' hq => ?_⟩
  simp only [decide_eq_true_eq] at hq
  rw [hl] at hs
  have hmem : k' ∈ as ++ k :: itr :: bs := hl ▸ mem_keyValueIndex.2 ⟨hk', hkk'⟩
  rcases Neighbors.rel_of_mem_split hs hmem with hr | rfl | rfl | hr <;> omega

theorem noRow_of_next_ne (h : Neighbors.next db.keyValueIndex k = some itr) (ht : itr.tId ≠ k.tId) :
    db.NoRow k.tId (fun pk => decide (k.primaryKey < pk)) := by
  obtain ⟨as, bs, hl, -⟩ := Neighbors.exists_append_of_next h
  have hs := pairwise_keyValueIndex db
  rw [hl] at hs
  have hr₀ := Neighbors.rel_of_split hs
  intro k' hk' hkk' ht'
  have hmem : k' ∈ as ++ k :: itr :: bs := hl ▸ mem_keyValueIndex.2 ⟨hk', hkk'⟩
  simp only [decide_eq_false_iff_not, not_lt]
  rcases Neighbors.rel_of_mem_split hs hmem with hr | rfl | rfl | hr <;> omega

theorem noRow_of_next_eq_none (hk : k ∈ db.keyValueIndex)
    (h : Neighbors.next db.keyValueIndex k = none) :
    db.NoRow k.tId (fun pk => decide (k.primaryKey < pk)) := by
  obtain ⟨as, hl, -⟩ := Neighbors.exists_append_of_next_eq_none hk h
  have hs := pairwise_keyValueIndex db
  rw [hl] at hs
  intro k' hk' hkk' ht'
  have hmem : k' ∈ as ++ [k] := hl ▸ mem_keyValueIndex.2 ⟨hk', hkk'⟩
  simp only [decide_eq_false_iff_not, not_lt]
  rcases Neighbors.getLast?_eq_or_rel hs (List.getLast?_concat ..) hmem with rfl | hr <;> omega

theorem prev_isLastRow (hk : k ∈ db.keyValueIndex) (h : Neighbors.prev db.keyValueIndex k = some itr)
    (ht : itr.tId = k.tId) :
    db.IsLastRow k.tId (fun pk => decide (pk < k.primaryKey)) itr := by
  obtain ⟨as, bs, hl, -⟩ := Neighbors.exists_append_of_prev hk h
  have hlt := primaryKey_lt_of_split hl ht
  have hs := pairwise_keyValueIndex db
  obtain ⟨hrow, hkind⟩ := mem_keyValueIndex.1 (Neighbors.mem_of_prev h)
  refine ⟨hrow, hkind, ht, by simpa using hlt, fun k' hk' hkk' ht' hq => ?_⟩
  simp only [decide_eq_true_eq] at hq
  rw [hl] at hs
  have hmem : k' ∈ as ++ itr :: k :: bs := hl ▸ mem_keyValueIndex.2 ⟨hk', hkk'⟩
  rcases Neighbors.rel_of_mem_split hs hmem with hr | rfl | rfl | hr <;> omega

theorem noRow_of_prev_ne (hk : k ∈ db.keyValueIndex) (h : Neighbors.prev db.keyValueIndex k = some itr)
    (ht : itr.tId ≠ k.tId) :
    db.NoRow k.tId (fun pk => decide (pk < k.primaryKey)) := by
  obtain ⟨as, bs, hl, -⟩ := Neighbors.exists_append_of_prev hk h
  have hs := pairwise_keyValueIndex db
  rw [hl] at hs
  have hr₀ := Neighbors.rel_of_split hs
  intro k' hk' hkk' ht'
  have hmem : k' ∈ as ++ itr :: k :: bs := hl ▸ mem_keyValueIndex.2 ⟨hk', hkk'⟩
  simp only [decide_eq_false_iff_not, not_lt]
  rcases Neighbors.rel_of_mem_split hs hmem with hr | rfl | rfl | hr <;> omega

theorem noRow_of_prev_eq_none (hk : k ∈ db.keyValueIndex)
    (h : Neighbors.prev db.keyValueIndex k = none) :
    db.NoRow k.tId (fun pk => decide (pk < k.primaryKey)) := by
  obtain ⟨bs, hl⟩ := List.head?_eq_some_iff.1 (Neighbors.head?_of_prev_eq_none hk h)
  have hs := pairwise_keyValueIndex db
  rw [hl] at hs
  intro k' hk' hkk' ht'
  have hmem : k' ∈ k :: bs := hl ▸ mem_keyValueIndex.2 ⟨hk', hkk'⟩
  simp only [decide_eq_false_iff_not, not_lt]
  rcases List.mem_cons.1 hmem with rfl | hmem
  · exact le_refl _
  · have hr := List.rel_of_pairwise_cons hs hmem
    omega

/-- `db_next_i64` from the iterator of row `k`: the iterator of the table's next row by primary
key, and its key, or the table's end iterator after the last row. -/
theorem dbNextI64_spec (h : KvInv ⟨db, c⟩) {it : Int} (hget : c.get it = .ok k) :
    ∃ i p c', db.dbNextI64 c it = .ok (i, p, c') ∧
      ((∃ k', db.IsFirstRow k.tId (fun pk => decide (k.primaryKey < pk)) k' ∧
          p = some k'.primaryKey ∧ c'.get i = .ok k') ∨
        (db.NoRow k.tId (fun pk => decide (k.primaryKey < pk)) ∧ p = none ∧
          c'.findTableByEndIterator i = .ok (some k.tId))) := by
  have hk := h.live k (h.wellFormed.mem_of_get hget)
  obtain ⟨ei, hei⟩ : ∃ ei, c.tableCache.lookup k.tId = some ei :=
    Option.isSome_iff_exists.1 (AList.lookup_isSome.2 (h.tableCached k (h.wellFormed.mem_of_get hget)))
  have hend : c.getEndIteratorByTableId k.tId = .ok ei := by
    simp [IteratorCache.getEndIteratorByTableId, hei]
  have hfind := h.wellFormed.findTableByEndIterator hei
  have hit := nonneg_of_get hget
  rcases hnx : Neighbors.next db.keyValueIndex k with _ | itr
  · exact ⟨ei, none, c, by simp [dbNextI64, if_neg (show ¬it < -1 by omega), hget, hnx, hend],
      .inr ⟨noRow_of_next_eq_none hk hnx, rfl, hfind⟩⟩
  · by_cases ht : itr.tId = k.tId
    · exact ⟨_, _, _, dbNextI64_of_next hget hnx ht,
        .inl ⟨itr, next_isFirstRow hnx ht, rfl, (h.wellFormed.add itr).get_eq_ok.2 (lookup_add c itr)⟩⟩
    · exact ⟨ei, none, c,
        by simp [dbNextI64, if_neg (show ¬it < -1 by omega), hget, hnx, ht, hend],
        .inr ⟨noRow_of_next_ne hnx ht, rfl, hfind⟩⟩

/-- `db_previous_i64` from the iterator of row `k`: the iterator of the table's row before it by
primary key, and its key, or -1 from the first row. -/
theorem dbPreviousI64_spec (h : KvInv ⟨db, c⟩) {it : Int} (hget : c.get it = .ok k) :
    ∃ i p c', db.dbPreviousI64 c it = .ok (i, p, c') ∧
      ((∃ k', db.IsLastRow k.tId (fun pk => decide (pk < k.primaryKey)) k' ∧
          p = some k'.primaryKey ∧ c'.get i = .ok k') ∨
        (db.NoRow k.tId (fun pk => decide (pk < k.primaryKey)) ∧ i = -1 ∧ p = none ∧ c' = c)) := by
  have hk := h.live k (h.wellFormed.mem_of_get hget)
  have hit := nonneg_of_get hget
  rcases hpv : Neighbors.prev db.keyValueIndex k with _ | itr
  · exact ⟨-1, none, c, by simp [dbPreviousI64, if_neg (show ¬it < -1 by omega), hget, hpv],
      .inr ⟨noRow_of_prev_eq_none hk hpv, rfl, rfl, rfl⟩⟩
  · by_cases ht : itr.tId = k.tId
    · exact ⟨_, _, _, dbPreviousI64_of_prev hget hpv ht,
        .inl ⟨itr, prev_isLastRow hk hpv ht, rfl, (h.wellFormed.add itr).get_eq_ok.2 (lookup_add c itr)⟩⟩
    · exact ⟨-1, none, c,
        by simp [dbPreviousI64, if_neg (show ¬it < -1 by omega), hget, hpv, ht],
        .inr ⟨noRow_of_prev_ne hk hpv ht, rfl, rfl, rfl⟩⟩

end Step

end Database

open Database

/-- In every state the action's `db_*_i64` calls reach, `db_lowerbound_i64` (`db_upperbound_i64`)
hands out the iterator of the table's row with the least primary key at least (above) the bound,
or the table's end iterator when there is none. -/
theorem bounds_are_first_rows (ctx : ActionContext) (db : Database) (calls : List KvCall)
    {s : KvState} (hrun : Transition.runAll (kvStep ctx) ⟨db, IteratorCache.empty⟩ calls = .ok s)
    {code scope table : Name} {tid : Nat} {t : TableIdObject}
    (hf : s.db.findTable code scope table = some (tid, t)) (id : Nat) :
    s.db.IsBoundResult tid (fun pk => decide (id ≤ pk))
        (s.db.dbLowerboundI64 s.cache code scope table id) ∧
      s.db.IsBoundResult tid (fun pk => decide (id < pk))
        (s.db.dbUpperboundI64 s.cache code scope table id) := by
  have hc := (kvInv_run ctx db hrun).wellFormed
  exact ⟨boundI64_spec hc hf _, boundI64_spec hc hf _⟩

theorem bounds_are_first_rows_six :
    Transition.runAll (kvStep sampleContext) ⟨twoRowDb, IteratorCache.empty⟩
        [.dbFindI64 ⟨1⟩ ⟨2⟩ ⟨3⟩ 5] = .ok ⟨twoRowDb, foundRowCache⟩ ∧
      twoRowDb.findTable ⟨1⟩ ⟨2⟩ ⟨3⟩ = some (0, ⟨⟨1⟩, ⟨2⟩, ⟨3⟩, ⟨1⟩, 2⟩) ∧
      (twoRowDb.IsBoundResult 0 (fun pk => decide (6 ≤ pk))
          (twoRowDb.dbLowerboundI64 foundRowCache ⟨1⟩ ⟨2⟩ ⟨3⟩ 6) ∧
        twoRowDb.IsBoundResult 0 (fun pk => decide (6 < pk))
          (twoRowDb.dbUpperboundI64 foundRowCache ⟨1⟩ ⟨2⟩ ⟨3⟩ 6)) := by
  have hf : twoRowDb.findTable ⟨1⟩ ⟨2⟩ ⟨3⟩ = some (0, ⟨⟨1⟩, ⟨2⟩, ⟨3⟩, ⟨1⟩, 2⟩) := rfl
  exact ⟨runAll_find_twoRowDb, hf,
    bounds_are_first_rows sampleContext twoRowDb _ runAll_find_twoRowDb hf 6⟩

/-- In every state the action's `db_*_i64` calls reach, `db_end_i64` hands out the table's end
iterator, and `db_previous_i64` from an end iterator the table's row with the greatest primary
key, or -1 when the table has no row. -/
theorem previous_from_end_is_last_row (ctx : ActionContext) (db : Database) (calls : List KvCall)
    {s : KvState} (hrun : Transition.runAll (kvStep ctx) ⟨db, IteratorCache.empty⟩ calls = .ok s)
    {code scope table : Name} {tid : Nat} {t : TableIdObject}
    (hf : s.db.findTable code scope table = some (tid, t)) :
    (s.db.dbEndI64 s.cache code scope table).2.findTableByEndIterator
        (s.db.dbEndI64 s.cache code scope table).1 = .ok (some tid) ∧
      ∀ ei, s.cache.findTableByEndIterator ei = .ok (some tid) →
        ∃ i p c', s.db.dbPreviousI64 s.cache ei = .ok (i, p, c') ∧
          ((∃ k, s.db.IsLastRow tid (fun _ => true) k ∧ p = some k.primaryKey ∧ c'.get i = .ok k) ∨
            (s.db.NoRow tid (fun _ => true) ∧ i = -1 ∧ p = none ∧ c' = s.cache)) := by
  have hc := (kvInv_run ctx db hrun).wellFormed
  exact ⟨dbEndI64_spec hc hf, fun ei hend => dbPreviousI64_of_end hc hend⟩

theorem previous_from_end_is_last_row_two :
    Transition.runAll (kvStep sampleContext) ⟨twoRowDb, IteratorCache.empty⟩
        [.dbFindI64 ⟨1⟩ ⟨2⟩ ⟨3⟩ 5] = .ok ⟨twoRowDb, foundRowCache⟩ ∧
      twoRowDb.findTable ⟨1⟩ ⟨2⟩ ⟨3⟩ = some (0, ⟨⟨1⟩, ⟨2⟩, ⟨3⟩, ⟨1⟩, 2⟩) ∧
      ((twoRowDb.dbEndI64 foundRowCache ⟨1⟩ ⟨2⟩ ⟨3⟩).2.findTableByEndIterator
          (twoRowDb.dbEndI64 foundRowCache ⟨1⟩ ⟨2⟩ ⟨3⟩).1 = .ok (some 0) ∧
        ∀ ei, foundRowCache.findTableByEndIterator ei = .ok (some 0) →
          ∃ i p c', twoRowDb.dbPreviousI64 foundRowCache ei = .ok (i, p, c') ∧
            ((∃ k, twoRowDb.IsLastRow 0 (fun _ => true) k ∧ p = some k.primaryKey ∧ c'.get i = .ok k) ∨
              (twoRowDb.NoRow 0 (fun _ => true) ∧ i = -1 ∧ p = none ∧ c' = foundRowCache))) := by
  have hf : twoRowDb.findTable ⟨1⟩ ⟨2⟩ ⟨3⟩ = some (0, ⟨⟨1⟩, ⟨2⟩, ⟨3⟩, ⟨1⟩, 2⟩) := rfl
  exact ⟨runAll_find_twoRowDb, hf,
    previous_from_end_is_last_row sampleContext twoRowDb _ runAll_find_twoRowDb hf⟩

/-- In every state the action's `db_*_i64` calls reach, `db_next_i64` from the iterator of a row
hands out the iterator and primary key of the next row of its table, or the table's end iterator
after its last row; and `db_previous_i64` the row before it in its table, or -1 before its first. -/
theorem next_previous_stay_in_table (ctx : ActionContext) (db : Database) (calls : List KvCall)
    {s : KvState} (hrun : Transition.runAll (kvStep ctx) ⟨db, IteratorCache.empty⟩ calls = .ok s)
    {it : Int} {k : RowKey} (hget : s.cache.get it = .ok k) :
    (∃ i p c', s.db.dbNextI64 s.cache it = .ok (i, p, c') ∧
      ((∃ k', s.db.IsFirstRow k.tId (fun pk => decide (k.primaryKey < pk)) k' ∧
          p = some k'.primaryKey ∧ c'.get i = .ok k') ∨
        (s.db.NoRow k.tId (fun pk => decide (k.primaryKey < pk)) ∧ p = none ∧
          c'.findTableByEndIterator i = .ok (some k.tId)))) ∧
    (∃ i p c', s.db.dbPreviousI64 s.cache it = .ok (i, p, c') ∧
      ((∃ k', s.db.IsLastRow k.tId (fun pk => decide (pk < k.primaryKey)) k' ∧
          p = some k'.primaryKey ∧ c'.get i = .ok k') ∨
        (s.db.NoRow k.tId (fun pk => decide (pk < k.primaryKey)) ∧ i = -1 ∧ p = none ∧
          c' = s.cache))) := by
  have hinv := kvInv_run ctx db hrun
  exact ⟨dbNextI64_spec hinv hget, dbPreviousI64_spec hinv hget⟩

theorem next_previous_stay_in_table_find :
    Transition.runAll (kvStep sampleContext) ⟨twoRowDb, IteratorCache.empty⟩
        [.dbFindI64 ⟨1⟩ ⟨2⟩ ⟨3⟩ 5] = .ok ⟨twoRowDb, foundRowCache⟩ ∧
      foundRowCache.get 0 = .ok foundRow ∧
      ((∃ i p c', twoRowDb.dbNextI64 foundRowCache 0 = .ok (i, p, c') ∧
        ((∃ k', twoRowDb.IsFirstRow foundRow.tId (fun pk => decide (foundRow.primaryKey < pk)) k' ∧
            p = some k'.primaryKey ∧ c'.get i = .ok k') ∨
          (twoRowDb.NoRow foundRow.tId (fun pk => decide (foundRow.primaryKey < pk)) ∧ p = none ∧
            c'.findTableByEndIterator i = .ok (some foundRow.tId)))) ∧
      (∃ i p c', twoRowDb.dbPreviousI64 foundRowCache 0 = .ok (i, p, c') ∧
        ((∃ k', twoRowDb.IsLastRow foundRow.tId (fun pk => decide (pk < foundRow.primaryKey)) k' ∧
            p = some k'.primaryKey ∧ c'.get i = .ok k') ∨
          (twoRowDb.NoRow foundRow.tId (fun pk => decide (pk < foundRow.primaryKey)) ∧ i = -1 ∧
            p = none ∧ c' = foundRowCache)))) := by
  have hget : foundRowCache.get 0 = .ok foundRow := rfl
  exact ⟨runAll_find_twoRowDb, hget,
    next_previous_stay_in_table sampleContext twoRowDb _ runAll_find_twoRowDb hget⟩

end Safeos
