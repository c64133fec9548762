import Safeos.Chain.ForkDatabase
import Safeos.Lib.ParentLinks
import Mathlib.Data.List.Chain
import Mathlib.Data.List.MinMax
import Mathlib.Data.Prod.Lex

/-!
# The fork graph

The blocks of the fork database form a forest through `previous`, and the proofs read it through
`ParentLinks`. `remove` erases a block with exactly its descendants (`remove_subtree`), and takes
the head by the `by_lib_block_num` key. `set_bft_irreversible` raises the descendants of a block
to its number and keeps the parent–child monotonicity of the BFT irreversible blocks, when the
block's own is not above its number (`set_bft_irreversible_raises`). `fetch_branch_from` returns
the two branches down to a common parent (`fetch_branch_from_spec`), when block numbers follow
the parents as block ids encode them.
-/

namespace Safeos

open ParentLinks

namespace BlockState

/-- The key of the `by_lib_block_num` order, which puts the highest keys first. -/
def libKey (b : BlockState) : ℕ ×ₗ ℕ ×ₗ ℕ :=
  toLex (b.dposIrreversibleBlocknum.toNat, toLex (b.bftIrreversibleBlocknum.toNat, b.blockNum.toNat))

theorem byLibBlockNumBefore_eq (a b : BlockState) :
    a.byLibBlockNumBefore b = decide (b.libKey < a.libKey) := by
  rw [Bool.eq_iff_iff]
  simp only [byLibBlockNumBefore, libKey, gt_iff_lt, Bool.or_eq_true, decide_eq_true_eq,
    Bool.and_eq_true, beq_iff_eq, Prod.Lex.toLex_lt_toLex, UInt32.lt_iff_toNat_lt,
    ← UInt32.toNat_inj]
  omega

end BlockState

/-- The first element of an ordered index whose order compares keys, highest first, is the
`argmax` of the key: the earliest of the elements with the highest key. -/
theorem firstBy_eq_argmax {α β : Type} [LinearOrder β] {before : α → α → Bool} (key : α → β)
    (hbefore : ∀ a b, before a b = decide (key b < key a)) (l : List α) :
    firstBy before l = l.argmax key := by
  obtain rfl : before = fun a b => decide (key b < key a) := funext fun a => funext (hbefore a)
  cases l with
  | nil => rfl
  | cons a l =>
    have hfold : ∀ (m : α) (l : List α), l.foldl (List.argAux fun b c => key c < key b) (some m) =
        some (l.foldl (fun m x => if key m < key x then x else m) m) := by
      intro m l
      induction l generalizing m with
      | nil => rfl
      | cons x l ih =>
        simp only [List.foldl_cons, List.argAux]
        split_ifs <;> exact ih _
    simp only [firstBy, decide_eq_true_eq]
    exact (hfold a l).symm

namespace ForkDatabase

theorem removeQueue_eq_eraseQueue (fuel : ℕ) (queue : List ℕ) (index : List BlockState) :
    removeQueue fuel queue index = eraseQueue BlockState.id BlockState.previous fuel queue index := by
  induction fuel generalizing queue index with
  | zero => rfl
  | succ fuel ih =>
    cases queue with
    | nil => rfl
    | cons id queue => exact ih _ _

/-- The head `remove` takes is the first block by the `by_lib_block_num` order. -/
theorem remove_head (db : ForkDatabase) (x : ℕ) :
    (db.remove x).head = (db.remove x).index.argmax BlockState.libKey :=
  firstBy_eq_argmax _ BlockState.byLibBlockNumBefore_eq _

theorem remove_subtree (db : ForkDatabase) (x : ℕ) (hids : (db.index.map (·.id)).Nodup)
    (hleft : ∃ b ∈ db.index, b.id ≠ x ∧ ¬Descends BlockState.id BlockState.previous db.index x b) :
    let db' := db.remove x
    db'.index.Sublist db.index ∧
      (∀ b, b ∈ db'.index ↔
        b ∈ db.index ∧ ¬(b.id = x ∨ Descends BlockState.id BlockState.previous db.index x b)) ∧
      ∃ h, db'.head = some h ∧ h ∈ db'.index ∧ (∀ b ∈ db'.index, b.libKey ≤ h.libKey) ∧
        ∀ b ∈ db'.index, h.libKey ≤ b.libKey → db'.index.idxOf h ≤ db'.index.idxOf b := by
  intro db'
  have hspec := eraseQueue_spec BlockState.previous x hids (Nat.lt_succ_self db.index.length)
  rw [← removeQueue_eq_eraseQueue] at hspec
  obtain ⟨hsub, hmem⟩ := hspec
  refine ⟨hsub, hmem, ?_⟩
  -- the block left over keeps the index nonempty, so the head is some block
  obtain ⟨b, hb, hbx, hbd⟩ := hleft
  have hb' : b ∈ db'.index := (hmem b).2 ⟨hb, not_or.2 ⟨hbx, hbd⟩⟩
  obtain ⟨h, hh⟩ : ∃ h, db'.index.argmax BlockState.libKey = some h := by
    cases hm : db'.index.argmax BlockState.libKey with
    | none => exact absurd hb' (List.argmax_eq_none.1 hm ▸ List.not_mem_nil)
    | some h => exact ⟨h, rfl⟩
  obtain ⟨hmem', hmax, hfirst⟩ := List.argmax_eq_some_iff.1 hh
  exact ⟨h, (remove_head db x).trans hh, hmem', hmax, hfirst⟩

/-- Removing `B2` from the two branches of `add_prunes_off_head_branch` keeps block 1 and the
branch `A`. -/
theorem remove_subtree_branch :
    let db : ForkDatabase := ⟨[forkRoot, forkA2, forkB2, forkA3, forkB3, forkB4], some forkB4⟩
    (db.index.map (·.id)).Nodup ∧
      (∃ b ∈ db.index, b.id ≠ 3 ∧ ¬Descends BlockState.id BlockState.previous db.index 3 b) ∧
      (db.remove 3).index.Sublist db.index := by
  intro db
  have hids : (db.index.map (·.id)).Nodup := by decide
  have hroot : ¬Descends BlockState.id BlockState.previous db.index 3 forkRoot := fun h => by
    rcases h.parent_cases with hp | hc
    · exact absurd hp (by decide)
    · exact absurd hc (by decide)
  have hleft : ∃ b ∈ db.index, b.id ≠ 3 ∧ ¬Descends BlockState.id BlockState.previous db.index 3 b :=
    ⟨forkRoot, List.mem_cons_self, by decide, hroot⟩
  exact ⟨hids, hleft, (remove_subtree db 3 hids hleft).1⟩

/-! ### `set_bft_irreversible` -/

/-- Parent–child monotonicity of the BFT irreversible blocks, which `next` keeps by copying the
parent's. -/
def BftMonotone (index : List BlockState) : Prop :=
  ∀ p ∈ index, ∀ c ∈ index, c.previous = p.id → p.bftIrreversibleBlocknum ≤ c.bftIrreversibleBlocknum

/-- The block with its BFT irreversible block set to `n`. -/
def withBft (n : UInt32) (b : BlockState) : BlockState := { b with bftIrreversibleBlocknum := n }

/-- A block whose BFT irreversible block is below `n`. -/
def bftBelow (n : UInt32) (b : BlockState) : Bool := b.bftIrreversibleBlocknum < n

/-- The first step of `set_bft_irreversible`: the block `id` takes its own number. -/
def ownBft (id : ℕ) (b : BlockState) : BlockState :=
  if b.id == id then withBft b.blockNum b else b

@[simp] theorem withBft_id (n : UInt32) (b : BlockState) : (withBft n b).id = b.id := rfl
@[simp] theorem withBft_previous (n : UInt32) (b : BlockState) : (withBft n b).previous = b.previous := rfl
@[simp] theorem withBft_bft (n : UInt32) (b : BlockState) : (withBft n b).bftIrreversibleBlocknum = n := rfl
@[simp] theorem withBft_withBft (m n : UInt32) (b : BlockState) : withBft m (withBft n b) = withBft m b := rfl
@[simp] theorem withBft_self (b : BlockState) : withBft b.bftIrreversibleBlocknum b = b := rfl

theorem bftBelow_withBft (n : UInt32) (b : BlockState) : bftBelow n (withBft n b) = false := by
  simp [bftBelow, withBft]

theorem ownBft_eq (id : ℕ) (b : BlockState) :
    ownBft id b = withBft (if b.id = id then b.blockNum else b.bftIrreversibleBlocknum) b := by
  by_cases h : b.id = id <;> simp [ownBft, h]

theorem ownBft_of_ne {id : ℕ} {b : BlockState} (h : b.id ≠ id) : ownBft id b = b := by
  simp [ownBft_eq, h]

theorem ownBft_self (b : BlockState) : ownBft b.id b = withBft b.blockNum b := by
  simp [ownBft_eq]

@[simp] theorem ownBft_id (id : ℕ) (b : BlockState) : (ownBft id b).id = b.id := by
  simp [ownBft_eq]

@[simp] theorem ownBft_previous (id : ℕ) (b : BlockState) : (ownBft id b).previous = b.previous := by
  simp [ownBft_eq]

theorem bftLayer_eq (blockNum : UInt32) (layer : List ℕ) (index : List BlockState) :
    bftLayer blockNum layer index = raiseLayer BlockState.id BlockState.previous (bftBelow blockNum)
      (withBft blockNum) layer index := by
  rfl

theorem bftLoop_eq (blockNum : UInt32) (fuel : ℕ) (queue : List ℕ) (index : List BlockState) :
    bftLoop blockNum fuel queue index = raiseLoop BlockState.id BlockState.previous
      (bftBelow blockNum) (withBft blockNum) fuel queue index := by
  induction fuel generalizing queue index with
  | zero => rfl
  | succ fuel ih =>
    cases queue with
    | nil => rfl
    | cons i queue =>
      simp only [bftLoop, raiseLoop, bftLayer_eq]
      exact ih _ _

theorem getBlock_of_mem {db : ForkDatabase} (hids : (db.index.map (·.id)).Nodup) {b : BlockState}
    (hb : b ∈ db.index) : db.getBlock b.id = some b := by
  unfold getBlock
  cases h : db.index.find? (·.id == b.id) with
  | none => exact absurd (List.find?_eq_none.1 h b hb) (by simp)
  | some a =>
    have hid : a.id = b.id := by simpa using List.find?_some h
    rw [key_inj hids (List.mem_of_find?_eq_some h) hb hid]

theorem getBlock_id {db : ForkDatabase} {id : ℕ} {b : BlockState} (h : db.getBlock id = some b) :
    b.id = id := by
  simpa using List.find?_some h

section SetBft

variable {db : ForkDatabase} {r : BlockState} (hids : (db.index.map (·.id)).Nodup)
  (hr : r ∈ db.index)
include hids hr

/-- What `set_bft_irreversible` leaves: the block takes its own number, and the blocks that reach
it through blocks below that number are raised to it. -/
theorem setBftIrreversible_index :
    ∃ rr : BlockState → Bool,
      (∀ b ∈ db.index.map (ownBft r.id), rr b ↔ Reaches BlockState.id BlockState.previous
        (bftBelow r.blockNum) (db.index.map (ownBft r.id)) r.id b) ∧
      (db.setBftIrreversible r.id).index = db.index.map fun b =>
        if rr (ownBft r.id b) then withBft r.blockNum b else ownBft r.id b := by
  obtain ⟨rr, hrr, hloop⟩ := raiseLoop_spec BlockState.id BlockState.previous
    (withBft r.blockNum) (bftBelow_withBft r.blockNum) r.id
    (Nat.lt_succ_self (db.index.map (ownBft r.id)).length)
  refine ⟨rr, hrr, ?_⟩
  simp only [setBftIrreversible, getBlock_of_mem hids hr]
  change bftLoop r.blockNum ((db.index.map (ownBft r.id)).length + 1) [r.id]
    (db.index.map (ownBft r.id)) = _
  rw [bftLoop_eq, hloop, List.map_map]
  refine List.map_congr_left fun b _ => ?_
  simp only [Function.comp_apply]
  split_ifs
  · simp [ownBft_eq]
  · rfl

/-- Under monotonicity, the blocks raised are the descendants below the block's number. -/
theorem reaches_ownBft_iff (hmono : BftMonotone db.index) {b : BlockState} (hb : b ∈ db.index) :
    Reaches BlockState.id BlockState.previous (bftBelow r.blockNum) (db.index.map (ownBft r.id))
        r.id (ownBft r.id b) ↔
      b.id ≠ r.id ∧ Descends BlockState.id BlockState.previous db.index r.id b ∧
        b.bftIrreversibleBlocknum < r.blockNum := by
  have hown : ∀ {b : BlockState}, b.id ≠ r.id → ownBft r.id b = b := ownBft_of_ne
  have hmem : ∀ {b : BlockState}, b ∈ db.index → b.id ≠ r.id → b ∈ db.index.map (ownBft r.id) :=
    fun hb h => List.mem_map.2 ⟨_, hb, hown h⟩
  constructor
  · intro h
    have hne : b.id ≠ r.id := by
      intro hbr
      have hbr' : b = r := key_inj hids hb hr hbr
      have := h.needs_eq
      simp [hbr', ownBft, bftBelow, withBft] at this
    rw [hown hne] at h
    refine ⟨hne, h.descends.of_map (ownBft_id r.id) (ownBft_previous r.id) b hb (hown hne), ?_⟩
    simpa [bftBelow] using h.needs_eq
  · rintro ⟨hne, hd, hlt⟩
    rw [hown hne]
    -- along the descent, a block below the number has every ancestor below it too
    induction hd with
    | child hb hp => exact .child (hmem hb hne) (by simpa [bftBelow] using hlt) hp
    | @step b c hb hc hp hd ih =>
      by_cases hcx : c.id = r.id
      · exact .child (hmem hb hne) (by simpa [bftBelow] using hlt) (hp.trans hcx)
      · have hcb := hmono c hc b hb hp
        have hclt : c.bftIrreversibleBlocknum < r.blockNum := by
          rw [UInt32.le_iff_toNat_le] at hcb
          rw [UInt32.lt_iff_toNat_lt] at hlt ⊢
          omega
        exact .step (hmem hb hne) (by simpa [bftBelow] using hlt) (hmem hc hcx) hp (ih hc hcx hclt)

end SetBft

/-- Consecutive blocks of a branch: the second is the parent of the first, one number lower. -/
def Linked (x y : BlockState) : Prop :=
  y.id = x.previous ∧ x.blockNum.toNat = y.blockNum.toNat + 1

/-- Along a branch the numbers decrease. -/
theorem pairwise_of_linked : ∀ {l : List BlockState}, l.IsChain Linked →
    l.Pairwise fun x y => y.blockNum.toNat < x.blockNum.toNat
  | [], _ => .nil
  | [_], _ => List.pairwise_singleton _ _
  | x :: y :: l, h => by
    rw [List.isChain_cons_cons] at h
    have ih := pairwise_of_linked h.2
    have hxy := h.1.2
    refine List.Pairwise.cons (fun z hz => ?_) ih
    rcases List.mem_cons.1 hz with rfl | hz
    · omega
    · have := List.rel_of_pairwise_cons ih hz
      omega

/-- A branch of blocks of the index is no longer than the index. -/
theorem length_le_of_linked {index l : List BlockState} (h : l.IsChain Linked)
    (hsub : ∀ x ∈ l, x ∈ index) : l.length ≤ index.length := by
  have hnd : l.Nodup := (pairwise_of_linked h).imp fun hlt heq => by subst heq; omega
  exact (hnd.subperm hsub).length_le

/-- The last block of a branch has the lowest number. -/
theorem num_le_of_mem_branch {l : List BlockState} {z x : BlockState} (h : (l ++ [z]).IsChain Linked)
    (hx : x ∈ l ++ [z]) : z.blockNum.toNat ≤ x.blockNum.toNat := by
  rcases List.mem_append.1 hx with hx | hx
  · exact Nat.le_of_lt (List.pairwise_append.1 (pairwise_of_linked h) |>.2.2 x hx z
      (List.mem_singleton_self z))
  · rw [List.mem_singleton.1 hx]

theorem IsChain.linked_snoc {l : List BlockState} {x y : BlockState}
    (h : (l ++ [x]).IsChain Linked) (hxy : Linked x y) : (l ++ [x] ++ [y]).IsChain Linked :=
  h.append (List.isChain_singleton y) (by simpa using hxy)

section Walk

variable {db : ForkDatabase} {numFromId : ℕ → ℕ} (hids : (db.index.map (·.id)).Nodup)
  (hnum : ∀ b ∈ db.index,
    numFromId b.id = b.blockNum.toNat ∧ b.blockNum.toNat = numFromId b.previous + 1)
  {k : ℕ}

include hnum in
/-- A block that descends from `k` is numbered above it. -/
theorem num_lt_of_descends {x : BlockState}
    (h : Descends BlockState.id BlockState.previous db.index k x) :
    numFromId k < x.blockNum.toNat := by
  induction h with
  | child hx hp =>
    have hx' := (hnum _ hx).2
    rw [hp] at hx'
    omega
  | @step x c hx hc hp _ ih =>
    have hx' := (hnum x hx).2
    have hc' := (hnum c hc).1
    rw [hp] at hx'
    omega

include hids hnum in
/-- A block that descends from `k` hangs from it, or from a block of the index that descends from
it, one number lower. -/
theorem descends_parent {x : BlockState}
    (h : Descends BlockState.id BlockState.previous db.index k x) :
    (x.previous = k ∧ x.blockNum.toNat = numFromId k + 1) ∨
      ∃ c ∈ db.index, db.getBlock x.previous = some c ∧
        Descends BlockState.id BlockState.previous db.index k c ∧
        x.blockNum.toNat = c.blockNum.toNat + 1 := by
  cases h with
  | child hx hp => exact .inl ⟨hp, hp ▸ (hnum x hx).2⟩
  | @step _ c hx hc hp hd =>
    have hx' := (hnum x hx).2
    have hc' := (hnum c hc).1
    rw [hp] at hx' ⊢
    exact .inr ⟨c, hc, getBlock_of_mem hids hc, hd, by omega⟩

include hnum in
/-- A block of the lowest number that descends from `k` is a child of `k`. -/
theorem previous_of_num {x : BlockState}
    (h : Descends BlockState.id BlockState.previous db.index k x)
    (hle : x.blockNum.toNat ≤ numFromId k + 1) : x.previous = k := by
  cases h with
  | child _ hp => exact hp
  | @step _ c hx hc hp hd =>
    have hx' := (hnum x hx).2
    have hc' := (hnum c hc).1
    have := num_lt_of_descends hnum hd
    rw [hp] at hx'
    omega

theorem walkDown_of_le {fuel : ℕ} {cur : BlockState} {num : UInt32} {branch : List BlockState}
    (h : ¬num < cur.blockNum) : db.walkDown fuel cur num branch = .ok (cur, branch) := by
  cases fuel <;> rw [walkDown, if_neg h] <;> rfl

/-- A branch walked down from a block that descends from `k`: linked blocks of the index, ending
at the current one. -/
structure Branch (db : ForkDatabase) (k : ℕ) (branch : List BlockState) (cur : BlockState) :
    Prop where
  chain : (branch ++ [cur]).IsChain Linked
  mem : ∀ x ∈ branch ++ [cur], x ∈ db.index
  descends : Descends BlockState.id BlockState.previous db.index k cur

omit hids hnum in
theorem Branch.start {b : BlockState} (hb : b ∈ db.index)
    (hd : Descends BlockState.id BlockState.previous db.index k b) : Branch db k [] b :=
  ⟨List.isChain_singleton b, fun x hx => by simpa [List.mem_singleton.1 hx] using hb, hd⟩

omit hids hnum in
theorem Branch.length_lt {branch : List BlockState} {cur : BlockState}
    (h : Branch db k branch cur) : branch.length < db.index.length := by
  have := length_le_of_linked h.chain h.mem
  simp only [List.length_append, List.length_singleton] at this
  omega

include hids hnum in
/-- One step down: a block above `k`'s number has its parent in the index, one number lower. -/
theorem Branch.step {branch : List BlockState} {cur : BlockState} (h : Branch db k branch cur)
    (hgt : numFromId k + 1 < cur.blockNum.toNat) :
    ∃ c, db.getBlock cur.previous = some c ∧ Branch db k (branch ++ [cur]) c ∧
      cur.blockNum.toNat = c.blockNum.toNat + 1 ∧
      (branch ++ [cur] ++ [c]).head? = (branch ++ [cur]).head? := by
  rcases descends_parent hids hnum h.descends with ⟨-, hn⟩ | ⟨c, hc, hget, hdc, hn⟩
  · omega
  refine ⟨c, hget, ⟨IsChain.linked_snoc h.chain ⟨getBlock_id hget, hn⟩, ?_, hdc⟩, hn, ?_⟩
  · intro x hx
    rcases List.mem_append.1 hx with hx | hx
    · exact h.mem x hx
    · exact List.mem_singleton.1 hx ▸ hc
  · cases branch <;> rfl

include hids hnum in
/-- The first two loops: from a block that descends from `k`, down to the number `num`, above
`k`'s. The fuel, the number of blocks, is enough. -/
theorem walkDown_spec {num : UInt32} (hk : numFromId k < num.toNat) {fuel : ℕ}
    {branch : List BlockState} {cur : BlockState} (h : Branch db k branch cur)
    (hfuel : db.index.length ≤ fuel + branch.length) :
    ∃ branch' cur', db.walkDown fuel cur num branch = .ok (cur', branch') ∧
      Branch db k branch' cur' ∧ (branch' ++ [cur']).head? = (branch ++ [cur]).head? ∧
      cur'.blockNum.toNat = min cur.blockNum.toNat num.toNat := by
  induction fuel generalizing branch cur with
  | zero =>
    by_cases hlt : num < cur.blockNum
    · have := h.length_lt
      omega
    · refine ⟨branch, cur, walkDown_of_le hlt, h, rfl, ?_⟩
      rw [UInt32.lt_iff_toNat_lt] at hlt
      omega
  | succ fuel ih =>
    by_cases hlt : num < cur.blockNum
    · have hlt' := UInt32.lt_iff_toNat_lt.1 hlt
      obtain ⟨c, hget, hc, hn, hhead⟩ := h.step hids hnum (by omega)
      obtain ⟨branch', cur', hrun, h', hhead', hnum'⟩ :=
        ih hc (by simp only [List.length_append, List.length_singleton]; omega)
      have hstep : db.walkDown (fuel + 1) cur num branch =
          db.walkDown fuel c num (branch ++ [cur]) := by
        rw [walkDown, if_pos hlt, hget]
      exact ⟨branch', cur', hstep ▸ hrun, h', hhead'.trans hhead, by omega⟩
    · refine ⟨branch, cur, walkDown_of_le hlt, h, rfl, ?_⟩
      rw [UInt32.lt_iff_toNat_lt] at hlt
      omega

theorem walkTogether_of_eq {fuel : ℕ} {b₁ b₂ : BlockState} {br₁ br₂ : List BlockState}
    (h : b₁.previous = b₂.previous) :
    db.walkTogether fuel b₁ b₂ br₁ br₂ = .ok (b₁, b₂, br₁, br₂) := by
  cases fuel <;> rw [walkTogether] <;> simp [h]

include hids hnum in
/-- The third loop: two blocks of one number, both descending from `k`, walked down together
until they have the same parent. -/
theorem walkTogether_spec {fuel : ℕ} {br₁ br₂ : List BlockState} {b₁ b₂ : BlockState}
    (h₁ : Branch db k br₁ b₁) (h₂ : Branch db k br₂ b₂)
    (hn : b₁.blockNum.toNat = b₂.blockNum.toNat) (hfuel : db.index.length ≤ fuel + br₁.length) :
    ∃ br₁' br₂' b₁' b₂', db.walkTogether fuel b₁ b₂ br₁ br₂ = .ok (b₁', b₂', br₁', br₂') ∧
      Branch db k br₁' b₁' ∧ Branch db k br₂' b₂' ∧
      (br₁' ++ [b₁']).head? = (br₁ ++ [b₁]).head? ∧ (br₂' ++ [b₂']).head? = (br₂ ++ [b₂]).head? ∧
      b₁'.previous = b₂'.previous ∧ b₁'.blockNum.toNat = b₂'.blockNum.toNat := by
  induction fuel generalizing br₁ br₂ b₁ b₂ with
  | zero =>
    by_cases hp : b₁.previous = b₂.previous
    · exact ⟨br₁, br₂, b₁, b₂, walkTogether_of_eq hp, h₁, h₂, rfl, rfl, hp, hn⟩
    · have := h₁.length_lt
      omega
  | succ fuel ih =>
    by_cases hp : b₁.previous = b₂.previous
    · exact ⟨br₁, br₂, b₁, b₂, walkTogether_of_eq hp, h₁, h₂, rfl, rfl, hp, hn⟩
    -- two children of `k` have the same parent: the blocks are above them, with parents
    have hgt : numFromId k + 1 < b₁.blockNum.toNat := by
      by_contra hle
      exact hp ((previous_of_num hnum h₁.descends (by omega)).trans
        (previous_of_num hnum h₂.descends (by omega)).symm)
    obtain ⟨c₁, hget₁, hc₁, hn₁, hhead₁⟩ := h₁.step hids hnum hgt
    obtain ⟨c₂, hget₂, hc₂, hn₂, hhead₂⟩ := h₂.step hids hnum (by omega)
    obtain ⟨br₁', br₂', b₁', b₂', hrun, h₁', h₂', hhead₁', hhead₂', hp', hn'⟩ :=
      ih hc₁ hc₂ (by omega) (by simp only [List.length_append, List.length_singleton]; omega)
    have hstep : db.walkTogether (fuel + 1) b₁ b₂ br₁ br₂ =
        db.walkTogether fuel c₁ c₂ (br₁ ++ [b₁]) (br₂ ++ [b₂]) := by
      rw [walkTogether, if_pos (bne_iff_ne.2 hp), hget₁, hget₂]
    exact ⟨br₁', br₂', b₁', b₂', hstep ▸ hrun, h₁', h₂', hhead₁'.trans hhead₁,
      hhead₂'.trans hhead₂, hp', hn'⟩

end Walk

theorem fetch_branch_from_spec (db : ForkDatabase) (numFromId : ℕ → ℕ)
    (hids : (db.index.map (·.id)).Nodup)
    (hnum : ∀ b ∈ db.index,
      numFromId b.id = b.blockNum.toNat ∧ b.blockNum.toNat = numFromId b.previous + 1)
    (a b : BlockState) (ha : a ∈ db.index) (hb : b ∈ db.index) (k : ℕ)
    (hka : Descends BlockState.id BlockState.previous db.index k a)
    (hkb : Descends BlockState.id BlockState.previous db.index k b) :
    ∃ B₁ B₂ c₁ c₂, db.fetchBranchFrom a.id b.id = .ok (B₁, B₂) ∧
      B₁.head? = some a ∧ B₂.head? = some b ∧ B₁.IsChain Linked ∧ B₂.IsChain Linked ∧
      B₁.getLast? = some c₁ ∧ B₂.getLast? = some c₂ ∧ c₁.previous = c₂.previous ∧
      ∀ x ∈ B₁ ++ B₂, x.id ≠ c₁.previous ∧
        ∀ y ∈ db.index, y.id = c₁.previous →
          ¬Descends BlockState.id BlockState.previous db.index x.id y := by
  have hfuel : ∀ l : List BlockState, db.index.length ≤ db.index.length + l.length :=
    fun _ => Nat.le_add_right _ _
  -- the first loop walks `a` down to `b`'s number, the second `b` down to where `a` stopped
  obtain ⟨br₁, b₁, hw₁, h₁, hhead₁, hn₁⟩ :=
    walkDown_spec hids hnum (num_lt_of_descends hnum hkb) (Branch.start ha hka) (hfuel [])
  obtain ⟨br₂, b₂, hw₂, h₂, hhead₂, hn₂⟩ :=
    walkDown_spec hids hnum (num_lt_of_descends hnum h₁.descends) (Branch.start hb hkb) (hfuel [])
  obtain ⟨br₁', br₂', b₁', b₂', hw₃, h₁', h₂', hhead₁', hhead₂', hp, hn⟩ :=
    walkTogether_spec hids hnum h₁ h₂ (by omega) (hfuel br₁)
  refine ⟨br₁' ++ [b₁'], br₂' ++ [b₂'], b₁', b₂', ?_, hhead₁'.trans hhead₁,
    hhead₂'.trans hhead₂, h₁'.chain, h₂'.chain, List.getLast?_concat, List.getLast?_concat, hp, ?_⟩
  · simp [fetchBranchFrom, getBlock_of_mem hids ha, getBlock_of_mem hids hb, hw₁, hw₂, hw₃]
  · -- the branches are above the common parent, whose ancestors are below it
    intro x hx
    have hxmem : x ∈ db.index := by
      rcases List.mem_append.1 hx with hx | hx
      · exact h₁'.mem x hx
      · exact h₂'.mem x hx
    have hle : b₁'.blockNum.toNat ≤ x.blockNum.toNat := by
      rcases List.mem_append.1 hx with hx | hx
      · exact num_le_of_mem_branch h₁'.chain hx
      · exact hn ▸ num_le_of_mem_branch h₂'.chain hx
    have hx' := (hnum x hxmem).1
    have hb' := (hnum b₁' (h₁'.mem b₁' (List.mem_append_right _ (List.mem_singleton_self _)))).2
    refine ⟨fun heq => by rw [heq] at hx'; omega, fun y hy hyid hd => ?_⟩
    have hy' := (hnum y hy).1
    have := num_lt_of_descends hnum hd
    rw [hyid] at hy'
    omega

/-- The branches `A3` and `B4` of `add_prunes_off_head_branch`, from block 1. -/
theorem fetch_branch_from_two_branches :
    let db : ForkDatabase := ⟨[forkRoot, forkA2, forkB2, forkA3, forkB3, forkB4], some forkB4⟩
    let numFromId : ℕ → ℕ := fun i => [0, 1, 2, 2, 3, 3, 4].getD i 0
    (db.index.map (·.id)).Nodup ∧
      (∀ b ∈ db.index,
        numFromId b.id = b.blockNum.toNat ∧ b.blockNum.toNat = numFromId b.previous + 1) ∧
      forkA3 ∈ db.index ∧ forkB4 ∈ db.index ∧
      Descends BlockState.id BlockState.previous db.index 1 forkA3 ∧
      Descends BlockState.id BlockState.previous db.index 1 forkB4 ∧
      ∃ B₁ B₂, db.fetchBranchFrom forkA3.id forkB4.id = .ok (B₁, B₂) := by
  intro db numFromId
  have hids : (db.index.map (·.id)).Nodup := by decide
  have hnum : ∀ b ∈ db.index,
      numFromId b.id = b.blockNum.toNat ∧ b.blockNum.toNat = numFromId b.previous + 1 := by
    decide
  have ha : forkA3 ∈ db.index := by decide
  have hb : forkB4 ∈ db.index := by decide
  have hmem : ∀ x ∈ [forkA2, forkB2, forkB3], x ∈ db.index := by decide
  have hka : Descends BlockState.id BlockState.previous db.index 1 forkA3 :=
    .step ha (hmem forkA2 (by simp)) rfl (.child (hmem forkA2 (by simp)) rfl)
  have hkb : Descends BlockState.id BlockState.previous db.index 1 forkB4 :=
    .step hb (hmem forkB3 (by simp)) rfl (.step (hmem forkB3 (by simp)) (hmem forkB2 (by simp)) rfl
      (.child (hmem forkB2 (by simp)) rfl))
  obtain ⟨B₁, B₂, -, -, hrun, -⟩ :=
    fetch_branch_from_spec db numFromId hids hnum forkA3 forkB4 ha hb 1 hka hkb
  exact ⟨hids, hnum, ha, hb, hka, hkb, B₁, B₂, hrun⟩

end ForkDatabase

end Safeos
