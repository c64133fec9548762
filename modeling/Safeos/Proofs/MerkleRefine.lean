import Safeos.Chain.Merkle
import Safeos.Lib.PairLevels
import Mathlib

/-!
# The incremental merkle tree computes the merkle root

`merkle` builds the tree over its digests level by level (`PairLevels.levels`); its root is the
one node of level `clog₂ n` (`merkle_eq_treeRoot`).

After `n` appends, `_active_nodes` holds the root of one complete subtree for each set bit of
`n`, lowest bit first, and last the root of the whole tree, unless `n` is a power of two and that
root is already the subtree of its one bit (`activeNodesOf`). `append` adds one to the count bit
by bit: a set bit of the old count is a stored left sibling that it hashes in and drops, a clear
bit a level where the new node has no right sibling yet. The loop turns
`calcluate_max_depth (n + 1) - 1 = clog₂ (n + 1)` times (`calcluateMaxDepth_sub_one`), up to the
root.
-/

namespace Safeos
namespace Merkle

open PairLevels

/-! ### The depth of the tree -/

section Depth

/-- One step of `next_power_of_2`: each bit is or-ed with the one `s` places above it. -/
def smear (s value : UInt64) : UInt64 := value ||| value >>> s

theorem nextPowerOf2_eq (v : UInt64) :
    nextPowerOf2 v = smear 32 (smear 16 (smear 8 (smear 4 (smear 2 (smear 1 (v - 1)))))) + 1 :=
  rfl

/-- Some bit of `x` is set among the `w` bits from bit `i` on. -/
def BitWithin (x w i : ℕ) : Prop := ∃ j, i ≤ j ∧ j < i + w ∧ x.testBit j = true

theorem bitWithin_one (x i : ℕ) : x.testBit i = true ↔ BitWithin x 1 i := by
  constructor
  · intro h
    exact ⟨i, le_rfl, by omega, h⟩
  · rintro ⟨j, hij, hj, h⟩
    rwa [show i = j by omega]

/-- Each step of the smear doubles the window of bits a bit of the result stands for. -/
theorem bitWithin_smear {x w : ℕ} {s y : UInt64} (hs : s.toNat = w) (hw : w < 64)
    (hy : ∀ i, y.toNat.testBit i = true ↔ BitWithin x w i) (i : ℕ) :
    (smear s y).toNat.testBit i = true ↔ BitWithin x (2 * w) i := by
  rw [smear, UInt64.toNat_or, UInt64.toNat_shiftRight, hs, Nat.mod_eq_of_lt hw, Nat.testBit_or,
    Nat.testBit_shiftRight, Bool.or_eq_true, hy, hy]
  constructor
  · rintro (⟨j, hij, hj, hx⟩ | ⟨j, hij, hj, hx⟩)
    · exact ⟨j, hij, by omega, hx⟩
    · exact ⟨j, by omega, by omega, hx⟩
  · rintro ⟨j, hij, hj, hx⟩
    by_cases hjw : j < i + w
    · exact .inl ⟨j, hij, hjw, hx⟩
    · exact .inr ⟨j, by omega, by omega, hx⟩

/-- In a 64-bit number, some bit at or above `i` is set exactly up to its highest bit. -/
theorem bitWithin_64 {x : ℕ} (hx0 : x ≠ 0) (hx : x < 2 ^ 64) (i : ℕ) :
    BitWithin x 64 i ↔ i ≤ x.log2 := by
  constructor
  · rintro ⟨j, hij, -, hj⟩
    exact hij.trans ((Nat.le_log2 hx0).2 (Nat.ge_two_pow_of_testBit hj))
  · intro hi
    have hlog : x.log2 < 64 := (Nat.log2_lt hx0).2 hx
    exact ⟨x.log2, hi, by omega, Nat.testBit_log2 hx0⟩

/-- `next_power_of_2 v` is the power of two at or above `v`, as a `uint64_t`: zero above `2^63`. -/
theorem nextPowerOf2_toNat {v : UInt64} (hv : 2 ≤ v.toNat) :
    (nextPowerOf2 v).toNat = 2 ^ ((v.toNat - 1).log2 + 1) % 2 ^ 64 := by
  have hx : (v - 1).toNat = v.toNat - 1 :=
    UInt64.toNat_sub_of_le _ _ (UInt64.le_iff_toNat_le.2 (by rw [UInt64.toNat_one]; omega))
  have hx0 : v.toNat - 1 ≠ 0 := by omega
  have hx64 : v.toNat - 1 < 2 ^ 64 := by have := v.toNat_lt; omega
  -- the six steps of the smear, each doubling the window
  have h1 : ∀ i, (v - 1).toNat.testBit i = true ↔ BitWithin (v.toNat - 1) 1 i := by
    intro i
    rw [hx]
    exact bitWithin_one _ i
  have h64 := bitWithin_smear (s := 32) rfl (by decide) <|
    bitWithin_smear (s := 16) rfl (by decide) <| bitWithin_smear (s := 8) rfl (by decide) <|
    bitWithin_smear (s := 4) rfl (by decide) <| bitWithin_smear (s := 2) rfl (by decide) <|
    bitWithin_smear (s := 1) rfl (by decide) h1
  have hsmear : (smear 32 (smear 16 (smear 8 (smear 4 (smear 2 (smear 1 (v - 1))))))).toNat =
      2 ^ ((v.toNat - 1).log2 + 1) - 1 := by
    refine Nat.eq_of_testBit_eq fun i => Bool.eq_iff_iff.2 ?_
    rw [h64, show 2 * UInt64.toNat 32 = 64 by decide, bitWithin_64 hx0 hx64,
      Nat.testBit_two_pow_sub_one, decide_eq_true_iff]
    omega
  rw [nextPowerOf2_eq, UInt64.toNat_add, hsmear, UInt64.toNat_one,
    Nat.sub_add_cancel Nat.one_le_two_pow]

/-- `clz_power_2` of a power of two, or of zero standing for `2^64`. -/
theorem clzPower2_two_pow : ∀ k : ℕ, k < 65 → clzPower2 (UInt64.ofNat (2 ^ k)) = (k : ℤ) := by
  decide

theorem clog_two_eq_log2 {n : ℕ} (hn : 2 ≤ n) : Nat.clog 2 n = (n - 1).log2 + 1 := by
  have hn1 : n - 1 ≠ 0 := by omega
  apply le_antisymm
  · have := @Nat.lt_log2_self (n - 1)
    exact (Nat.clog_le_iff_le_pow one_lt_two).2 (by omega)
  · have := Nat.log2_self_le hn1
    exact Nat.succ_le_of_lt ((Nat.lt_clog_iff_pow_lt one_lt_two).2 (by omega))

/-- The loop of `append` over `n` nodes turns `clog₂ n` times. -/
theorem calcluateMaxDepth_sub_one {n : UInt64} (hn : n ≠ 0) :
    (calcluateMaxDepth n - 1).toNat = Nat.clog 2 n.toNat := by
  by_cases h1 : n = 1
  · subst h1
    rw [UInt64.toNat_one, Nat.clog_one_right]
    decide
  · have h2 : 2 ≤ n.toNat := by
      have h0 : n.toNat ≠ 0 := fun h => hn (UInt64.toNat_inj.1 h)
      have h1' : n.toNat ≠ 1 := fun h => h1 (UInt64.toNat_inj.1 h)
      omega
    have hlog : (n.toNat - 1).log2 + 1 < 65 := by
      have := (Nat.log2_lt (n := n.toNat - 1) (k := 64) (by omega)).2
        (by have := n.toNat_lt; omega)
      omega
    have hnext : nextPowerOf2 n = UInt64.ofNat (2 ^ ((n.toNat - 1).log2 + 1)) :=
      UInt64.toNat_inj.1 (by rw [UInt64.toNat_ofNat', nextPowerOf2_toNat h2])
    rw [calcluateMaxDepth, if_neg hn, hnext, clzPower2_two_pow _ hlog, clog_two_eq_log2 h2]
    omega

end Depth

/-! ### Binary counting -/

section Count

/-- The set bits of `n` from bit `j` to bit 63. -/
def bitsFrom (n j : ℕ) : List ℕ := (List.range' j (64 - j)).filter n.testBit

/-- The set bits of `n` below bit `j`. -/
def bitsBelow (n j : ℕ) : List ℕ := (List.range j).filter n.testBit

theorem bitsFrom_of_lt {n j : ℕ} (hj : j < 64) :
    bitsFrom n j = if n.testBit j then j :: bitsFrom n (j + 1) else bitsFrom n (j + 1) := by
  rw [bitsFrom, show 64 - j = 64 - (j + 1) + 1 by omega, List.range'_succ, List.filter_cons]
  rfl

theorem bitsBelow_succ (n j : ℕ) :
    bitsBelow n (j + 1) = bitsBelow n j ++ if n.testBit j then [j] else [] := by
  rw [bitsBelow, List.range_succ, List.filter_append, List.filter_singleton]
  cases n.testBit j <;> rfl

theorem range_filter_testBit {n k : ℕ} (hk : k ≤ 64) :
    (List.range 64).filter n.testBit = bitsBelow n k ++ bitsFrom n k := by
  have hsplit : List.range' 0 64 = List.range' 0 k ++ List.range' k (64 - k) := by
    have := @List.range'_append_1 0 k (64 - k)
    rw [Nat.zero_add, Nat.add_sub_cancel' hk] at this
    exact this.symm
  rw [bitsBelow, bitsFrom, ← List.filter_append, List.range_eq_range', List.range_eq_range',
    hsplit]

/-- No bit at or above `k` is set below `2^k`. -/
theorem bitsFrom_eq_nil {n k : ℕ} (hn : n < 2 ^ k) : bitsFrom n k = [] := by
  refine List.filter_eq_nil_iff.2 fun i hi => ?_
  obtain ⟨i, -, rfl⟩ := List.mem_range'.1 hi
  rw [Nat.testBit_eq_false_of_lt (hn.trans_le (Nat.pow_le_pow_right (by norm_num) (by omega)))]
  simp

theorem bitsBelow_two_pow (k j : ℕ) (hj : j ≤ k) : bitsBelow (2 ^ k) j = [] := by
  refine List.filter_eq_nil_iff.2 fun i hi => ?_
  rw [Nat.testBit_two_pow]
  simp only [List.mem_range] at hi
  simp only [decide_eq_true_eq]
  omega

theorem bitsFrom_two_pow {k : ℕ} (hk : k < 64) : bitsFrom (2 ^ k) k = [k] := by
  rw [bitsFrom_of_lt hk, Nat.testBit_two_pow, if_pos (by simp)]
  congr
  refine List.filter_eq_nil_iff.2 fun i hi => ?_
  obtain ⟨i, -, rfl⟩ := List.mem_range'.1 hi
  simp only [Nat.testBit_two_pow, decide_eq_true_eq]
  omega

/-- The test of `append`'s loop for a left node. -/
theorem and_one_beq_zero (index : UInt64) : (index &&& 1 == 0) = decide (index.toNat % 2 = 0) := by
  rw [Bool.eq_iff_iff, beq_iff_eq, decide_eq_true_iff, ← UInt64.toNat_inj, UInt64.toNat_and,
    UInt64.toNat_one, Nat.and_one_is_mod, UInt64.toNat_zero]

theorem toNat_shiftRight_one (index : UInt64) : (index >>> 1).toNat = index.toNat / 2 := by
  rw [UInt64.toNat_shiftRight, UInt64.toNat_one, Nat.shiftRight_eq_div_pow]

/-- Adding one carries into bit `j` exactly when the bits below it are all set. -/
theorem succ_div_two_pow (m j : ℕ) :
    (m + 1) / 2 ^ j = m / 2 ^ j + if m % 2 ^ j = 2 ^ j - 1 then 1 else 0 := by
  have hpos : 0 < 2 ^ j := by positivity
  have hlt := Nat.mod_lt m hpos
  have hdvd : 2 ^ j ∣ m + 1 ↔ m % 2 ^ j = 2 ^ j - 1 := by
    rw [Nat.dvd_iff_mod_eq_zero, ← Nat.mod_add_mod]
    by_cases hr : m % 2 ^ j + 1 = 2 ^ j
    · rw [hr, Nat.mod_self]
      omega
    · rw [Nat.mod_eq_of_lt (by omega)]
      omega
  rw [Nat.succ_div]
  simp only [hdvd]

end Count

/-! ### The tree over the leaves -/

section Tree

variable {D : Type} (hashPair : D → D → D)

/-- The root of the complete subtree of height `i` that ends last among the leaves `L`: the
node of level `i` over the last full block of `2^i` leaves. -/
def subtreeRoot (L : List D) (i : ℕ) : Option D := (levels hashPair L i)[L.length / 2 ^ i - 1]?

/-- The root of the tree over `L`. -/
def treeRoot (L : List D) : Option D := (levels hashPair L (Nat.clog 2 L.length))[0]?

/-- What `_active_nodes` holds once the leaves `L` are appended. -/
def activeNodesOf (L : List D) : List D :=
  ((List.range 64).filter L.length.testBit).filterMap (subtreeRoot hashPair L) ++
    if L.length = 2 ^ L.length.log2 then [] else (treeRoot hashPair L).toList

/-- An incremental tree over the leaves `L`. -/
structure MerkleInv (t : IncrementalMerkle D) (L : List D) : Prop where
  nodeCount : t.nodeCount.toNat = L.length
  activeNodes : t.activeNodes = activeNodesOf hashPair L

variable {hashPair}

theorem merkleInv_empty : MerkleInv hashPair IncrementalMerkle.empty ([] : List D) :=
  ⟨rfl, by simp [activeNodesOf, treeRoot, IncrementalMerkle.empty]⟩

/-- A round of `merkle` is a level of the tree. -/
theorem merkleRound_eq_level [Inhabited D] (ids : List D) : merkleRound hashPair ids = level hashPair ids := by
  obtain ⟨pad, hpad, hround⟩ : ∃ pad,
      pad = (if ids.length % 2 = 1 then ids ++ [ids.getLast!] else ids) ∧
      merkleRound hashPair ids =
        (List.range (pad.length / 2)).map fun i => hashPair pad[2 * i]! pad[2 * i + 1]! :=
    ⟨_, rfl, rfl⟩
  -- the padded list: the digests, and on an odd count the last one again
  have hlen : pad.length / 2 = (ids.length + 1) / 2 := by
    rw [hpad]
    split_ifs with hodd
    · simp
    · omega
  have hleft : ∀ p (hp : p < ids.length), pad[p]! = ids[p] := by
    intro p hp
    rw [hpad, List.getElem!_eq_getElem?_getD]
    split_ifs
    · rw [List.getElem?_append_left hp, List.getElem?_eq_getElem hp]
      rfl
    · rw [List.getElem?_eq_getElem hp]
      rfl
  have hright : ∀ p (hp : p < ids.length), p + 1 = ids.length → ids.length % 2 = 1 →
      pad[p + 1]! = ids[p] := by
    intro p hp hlast hodd
    rw [hpad, if_pos hodd, List.getElem!_eq_getElem?_getD, List.getElem?_append_right (by omega),
      show p + 1 - ids.length = 0 by omega, List.getLast!_eq_getLast?_getD,
      List.getLast?_eq_getElem?, show ids.length - 1 = p by omega, List.getElem?_eq_getElem hp]
    rfl
  apply List.ext_getElem?
  intro i
  rw [hround, getElem?_level, List.getElem?_map, hlen]
  by_cases hi : i < (ids.length + 1) / 2
  · have h2i : 2 * i < ids.length := by omega
    rw [List.getElem?_range hi, List.getElem?_eq_getElem h2i, Option.map_some, Option.map_some,
      hleft _ h2i]
    by_cases h2i1 : 2 * i + 1 < ids.length
    · rw [List.getElem?_eq_getElem h2i1, hleft _ h2i1]
      rfl
    · rw [List.getElem?_eq_none (by omega), hright _ h2i (by omega) (by omega)]
      rfl
  · rw [List.getElem?_eq_none (by simp; omega),
      List.getElem?_eq_none (show ids.length ≤ 2 * i by omega)]
    rfl

/-- The loop of `merkle` stops at the level where one node is left. -/
theorem merkleLoop_head? [Inhabited D] : ∀ (fuel : ℕ) (ids : List D), ids ≠ [] → ids.length ≤ fuel + 1 →
    (merkleLoop hashPair fuel ids).head? = (levels hashPair ids (Nat.clog 2 ids.length))[0]?
  | 0, ids, hne, hlen => by
    have h1 : ids.length = 1 := by have := List.length_pos_iff.2 hne; omega
    rw [merkleLoop, h1, Nat.clog_one_right, levels_zero, List.head?_eq_getElem?]
  | fuel + 1, ids, hne, hlen => by
    have hpos := List.length_pos_iff.2 hne
    rw [merkleLoop]
    split_ifs with h
    · have hne' : level hashPair ids ≠ [] := by
        rw [← List.length_pos_iff, length_level]
        omega
      have hlen' : (level hashPair ids).length ≤ fuel + 1 := by
        rw [length_level]
        omega
      rw [merkleRound_eq_level, merkleLoop_head? fuel _ hne' hlen',
        Nat.clog_of_two_le one_lt_two h, ← levels_succ', length_level]
      rfl
    · have h1 : ids.length = 1 := by omega
      rw [h1, Nat.clog_one_right, levels_zero, List.head?_eq_getElem?]

theorem exists_treeRoot {L : List D} (hL : L ≠ []) : ∃ root, treeRoot hashPair L = some root := by
  refine ⟨_, List.getElem?_eq_getElem ?_⟩
  rw [length_levels hL]
  exact Nat.succ_pos _

/-- `merkle` is the root of the tree over its digests. -/
theorem merkle_eq_treeRoot [Inhabited D] {ids : List D} (hids : ids ≠ []) :
    treeRoot hashPair ids = some (merkle hashPair ids) := by
  obtain ⟨root, hroot⟩ : ∃ root, treeRoot hashPair ids = some root := exists_treeRoot hids
  have hlen : ids.length ≠ 0 := by simpa using hids
  rw [merkle, if_neg hlen, List.head!_eq_head?_getD,
    merkleLoop_head? _ _ hids (by omega), ← treeRoot, hroot]
  rfl


/-! ### One append -/

theorem length_levels_append (L : List D) (d : D) (j : ℕ) :
    (levels hashPair (L ++ [d]) j).length = L.length / 2 ^ j + 1 := by
  rw [length_levels (by simp), List.length_append, List.length_singleton, Nat.add_sub_cancel]

/-- The subtree of a set bit of the count is complete, and appending keeps its root. -/
theorem subtreeRoot_of_testBit {L : List D} (d : D) {j : ℕ} (hbit : L.length.testBit j) :
    ∃ y, subtreeRoot hashPair L j = some y ∧
      (levels hashPair (L ++ [d]) j)[L.length / 2 ^ j - 1]? = some y := by
  have hq := hbit
  rw [Nat.testBit_eq_decide_div_mod_eq, decide_eq_true_iff] at hq
  have hq1 : 1 ≤ L.length / 2 ^ j := Nat.pos_of_ne_zero fun h => by
    rw [h, Nat.zero_mod] at hq
    exact absurd hq (by decide)
  have hblock : (L.length / 2 ^ j - 1 + 1) * 2 ^ j ≤ L.length := by
    rw [Nat.sub_add_cancel hq1]
    exact Nat.div_mul_le_self _ _
  have hlt : L.length / 2 ^ j - 1 < (levels hashPair (L ++ [d]) j).length := by
    rw [length_levels_append]
    omega
  refine ⟨_, ?_, List.getElem?_eq_getElem hlt⟩
  rw [subtreeRoot, ← getElem?_levels_append [d] hblock, List.getElem?_eq_getElem hlt]

/-- The loop of `append` from height `j`, where `top` is the new node of that level: the rest
of the old active nodes are the subtrees of the count's bits from `j` up, and `updated` holds
the new ones below `j`. It ends at the root of the tree over the leaves with the new one. -/
theorem appendLoop_spec {L : List D} {d : D} {k : ℕ} (tail : List D) (hk : L.length < 2 ^ k)
    (hk64 : k ≤ 64) :
    ∀ (r j : ℕ) (partialNode : Bool) (index : UInt64) (top : D) (active updated : List D),
      j + r = k → index.toNat = L.length / 2 ^ j →
      (levels hashPair (L ++ [d]) j)[L.length / 2 ^ j]? = some top →
      partialNode = decide (L.length % 2 ^ j ≠ 2 ^ j - 1) →
      active = (bitsFrom L.length j).filterMap (subtreeRoot hashPair L) ++ tail →
      updated = (bitsBelow (L.length + 1) j).filterMap (subtreeRoot hashPair (L ++ [d])) →
      ∃ root, (levels hashPair (L ++ [d]) k)[0]? = some root ∧
        appendLoop hashPair r partialNode index top active updated =
          some (root, (bitsBelow (L.length + 1) k).filterMap (subtreeRoot hashPair (L ++ [d])))
  | 0, j, partialNode, index, top, active, updated, hjr, _, htop, _, _, hupdated => by
    rw [Nat.add_zero] at hjr
    subst hjr
    refine ⟨top, ?_, ?_⟩
    · rwa [Nat.div_eq_of_lt hk] at htop
    · rw [appendLoop, hupdated]
  | r + 1, j, partialNode, index, top, active, updated, hjr, hindex, htop, hflag, hactive,
      hupdated => by
    have hj : j < 64 := by omega
    have hpos : 0 < 2 ^ j := by positivity
    have hlow := Nat.mod_lt L.length hpos
    have hlen : (levels hashPair (L ++ [d]) j).length = L.length / 2 ^ j + 1 :=
      length_levels_append L d j
    have hhalf : L.length / 2 ^ (j + 1) = L.length / 2 ^ j / 2 := by
      rw [pow_succ, Nat.div_div_eq_div_mul]
    have hmod : L.length % 2 ^ (j + 1) = L.length % 2 ^ j + 2 ^ j * (L.length / 2 ^ j % 2) :=
      Nat.mod_pow_succ
    have hindex' : (index >>> 1).toNat = L.length / 2 ^ (j + 1) := by
      rw [toNat_shiftRight_one, hindex, hhalf]
    have hpar : (index &&& 1 == 0) = decide (L.length / 2 ^ j % 2 = 0) := by
      rw [and_one_beq_zero, hindex]
    have hbit' : (L.length + 1).testBit j =
        decide ((L.length / 2 ^ j + if L.length % 2 ^ j = 2 ^ j - 1 then 1 else 0) % 2 = 1) := by
      rw [Nat.testBit_eq_decide_div_mod_eq, succ_div_two_pow]
    rcases Nat.mod_two_eq_zero_or_one (L.length / 2 ^ j) with hq | hq
    · -- a left node: it waits for its right sibling, paired with itself for now
      have hbit : L.length.testBit j = false := by
        simp [Nat.testBit_eq_decide_div_mod_eq, hq]
      rw [appendLoop_left hashPair (by rw [hpar, hq]; rfl)]
      refine appendLoop_spec tail hk hk64 r (j + 1) _ _ _ _ _ (by omega) hindex' ?_ ?_ ?_ ?_
      · rw [levels_succ, hhalf]
        exact getElem?_level_of_even hq htop hlen
      · rw [hmod, hq, pow_succ]
        exact (decide_eq_true (by omega)).symm
      · rw [hactive, bitsFrom_of_lt hj, hbit]
        rfl
      · rw [bitsBelow_succ, List.filterMap_append, ← hupdated, hbit', hflag]
        by_cases hc : L.length % 2 ^ j = 2 ^ j - 1
        · -- the carry reaches bit `j`: the new node is the subtree of the new count's bit
          have hroot : subtreeRoot hashPair (L ++ [d]) j = some top := by
            rw [subtreeRoot, List.length_append, List.length_singleton, succ_div_two_pow,
              if_pos hc, Nat.add_sub_cancel]
            exact htop
          have hodd : (L.length / 2 ^ j + 1) % 2 = 1 := by omega
          simp [hc, hodd, hroot]
        · simp [hc, hq]
    · -- a right node: its left sibling is the next stored subtree
      have hbit : L.length.testBit j = true := by
        simp [Nat.testBit_eq_decide_div_mod_eq, hq]
      obtain ⟨y, hyL, hy⟩ := subtreeRoot_of_testBit d hbit
      rw [hactive, bitsFrom_of_lt hj, if_pos hbit, List.filterMap_cons_some hyL, List.cons_append,
        appendLoop_right hashPair (by rw [hpar, hq]; rfl)]
      refine appendLoop_spec tail hk hk64 r (j + 1) _ _ _ _ _ (by omega) hindex' ?_ ?_ rfl ?_
      · rw [levels_succ, hhalf]
        exact getElem?_level_of_odd hq hy htop
      · rw [hflag, hmod, hq, pow_succ]
        congr 1
        apply propext
        omega
      · rw [bitsBelow_succ, List.filterMap_append, ← hupdated, hbit', hflag]
        by_cases hc : L.length % 2 ^ j = 2 ^ j - 1
        · have heven : (L.length / 2 ^ j + 1) % 2 = 0 := by omega
          simp [hc, heven]
        · -- no carry into bit `j`: the stored subtree stays one of the new count's
          have hroot : subtreeRoot hashPair (L ++ [d]) j = some y := by
            rw [subtreeRoot, List.length_append, List.length_singleton, succ_div_two_pow,
              if_neg hc, Nat.add_zero]
            exact hy
          simp [hc, hq, hroot]


/-- The active nodes end with the root: the subtrees of the count's bits below the tree's
height come first. -/
theorem activeNodesOf_eq {L : List D} {root : D} (hlen : L.length < 2 ^ 64)
    (hroot : treeRoot hashPair L = some root) :
    activeNodesOf hashPair L =
      (bitsBelow L.length (Nat.clog 2 L.length)).filterMap (subtreeRoot hashPair L) ++ [root] := by
  have hk64 : Nat.clog 2 L.length ≤ 64 := (Nat.clog_le_iff_le_pow one_lt_two).2 hlen.le
  rw [activeNodesOf, range_filter_testBit hk64]
  by_cases hpow : L.length = 2 ^ L.length.log2
  · -- a complete tree: its root is the subtree of the count's one bit
    obtain ⟨a, ha⟩ : ∃ a, L.length = 2 ^ a := ⟨_, hpow⟩
    have ha64 : a < 64 := (Nat.pow_lt_pow_iff_right one_lt_two).1 (ha ▸ hlen)
    have hsub : subtreeRoot hashPair L a = some root := by
      rw [treeRoot, ha, Nat.clog_pow _ _ one_lt_two] at hroot
      rw [subtreeRoot, ha, Nat.div_self (by positivity)]
      exact hroot
    rw [if_pos hpow, ha, Nat.clog_pow _ _ one_lt_two, bitsBelow_two_pow a a le_rfl,
      bitsFrom_two_pow ha64]
    simp [hsub]
  · have hlt : L.length < 2 ^ Nat.clog 2 L.length := by
      refine lt_of_le_of_ne (Nat.le_pow_clog one_lt_two _) fun h => hpow ?_
      rw [h, Nat.log2_two_pow]
    rw [if_neg hpow, bitsFrom_eq_nil hlt, hroot]
    simp

/-- The loop of `append` to a tree over `L` turns once for each level of the tree over
`L ++ [d]`, also where `next_power_of_2` wraps. -/
theorem append_depth {t : IncrementalMerkle D} {L : List D} (hinv : MerkleInv hashPair t L)
    (hlen : L.length + 1 < 2 ^ 64) :
    (calcluateMaxDepth (t.nodeCount + 1) - 1).toNat = Nat.clog 2 (L.length + 1) := by
  have hcount : (t.nodeCount + 1).toNat = L.length + 1 := by
    rw [UInt64.toNat_add, hinv.nodeCount, UInt64.toNat_one, Nat.mod_eq_of_lt hlen]
  have hne : t.nodeCount + 1 ≠ 0 := fun h => by
    rw [h, UInt64.toNat_zero] at hcount
    omega
  rw [calcluateMaxDepth_sub_one hne, hcount]

/-- `append` to a tree over `L`: it returns the root of the tree over `L ++ [d]`, and the new
tree is over `L ++ [d]`. -/
theorem append_spec {t : IncrementalMerkle D} {L : List D} (hinv : MerkleInv hashPair t L) (d : D)
    (hlen : L.length + 1 < 2 ^ 64) :
    ∃ root t', treeRoot hashPair (L ++ [d]) = some root ∧
      append hashPair t d = some (root, t') ∧ MerkleInv hashPair t' (L ++ [d]) := by
  have hcount : (t.nodeCount + 1).toNat = L.length + 1 := by
    rw [UInt64.toNat_add, hinv.nodeCount, UInt64.toNat_one, Nat.mod_eq_of_lt hlen]
  have hk : L.length < 2 ^ Nat.clog 2 (L.length + 1) :=
    Nat.lt_of_succ_le (Nat.le_pow_clog one_lt_two _)
  have hk64 : Nat.clog 2 (L.length + 1) ≤ 64 := (Nat.clog_le_iff_le_pow one_lt_two).2 hlen.le
  -- the loop starts at the new leaf, with all the old active nodes left
  have hactive : t.activeNodes = (bitsFrom L.length 0).filterMap (subtreeRoot hashPair L) ++
      if L.length = 2 ^ L.length.log2 then [] else (treeRoot hashPair L).toList := by
    rw [hinv.activeNodes, activeNodesOf, bitsFrom, List.range_eq_range']
  obtain ⟨root, hroot, hloop⟩ := appendLoop_spec (d := d) _ hk hk64 _ 0 false t.nodeCount d
    t.activeNodes [] (Nat.zero_add _) (by simp [hinv.nodeCount]) (by simp) (by simp [Nat.mod_one])
    hactive
    (by simp [bitsBelow])
  have hroot' : treeRoot hashPair (L ++ [d]) = some root := by
    rwa [treeRoot, List.length_append, List.length_singleton]
  refine ⟨root, ⟨t.nodeCount + 1, activeNodesOf hashPair (L ++ [d])⟩, hroot', ?_,
    ⟨by rw [hcount, List.length_append, List.length_singleton], rfl⟩⟩
  rw [activeNodesOf_eq (by simpa using hlen) hroot', List.length_append, List.length_singleton]
  simp [append, append_depth hinv hlen, hloop]

/-- `get_root` of a tree over leaves is the root of the tree over them. -/
theorem getRoot_eq_treeRoot [Inhabited D] {t : IncrementalMerkle D} {L : List D}
    (hinv : MerkleInv hashPair t L) (hL : L ≠ []) : getRoot t = treeRoot hashPair L := by
  obtain ⟨root, hroot⟩ : ∃ root, treeRoot hashPair L = some root := exists_treeRoot hL
  have hpos : t.nodeCount > 0 := by
    rw [GT.gt, UInt64.lt_iff_toNat_lt, UInt64.toNat_zero, hinv.nodeCount]
    exact List.length_pos_iff.2 hL
  have hlen : L.length < 2 ^ 64 := hinv.nodeCount ▸ t.nodeCount.toNat_lt
  rw [getRoot, if_pos hpos, hinv.activeNodes, activeNodesOf_eq hlen hroot, hroot,
    List.getLast?_append]
  rfl

/-- Appending the digests `ds` one by one to a tree over `L`. -/
theorem appendAll_spec : ∀ (ds : List D) {t : IncrementalMerkle D} {L : List D},
    MerkleInv hashPair t L → (L ++ ds).length < 2 ^ 64 →
      ∃ t', appendAll hashPair t ds = some t' ∧ MerkleInv hashPair t' (L ++ ds)
  | [], t, L, hinv, _ => ⟨t, rfl, by simpa using hinv⟩
  | d :: ds, t, L, hinv, hlen => by
    rw [List.length_append, List.length_cons] at hlen
    obtain ⟨_, t', -, happ, hinv'⟩ := append_spec hinv d (by omega)
    obtain ⟨t'', hall, hinv''⟩ := appendAll_spec ds hinv' (by simp; omega)
    refine ⟨t'', ?_, by simpa using hinv''⟩
    simp [appendAll, happ, hall]


/-! ### The incremental tree refines `merkle` -/

/-- Grown from the empty tree one digest at a time, as `block_header_state` grows
`blockroot_merkle`, the incremental tree returns on each append, and then reports by
`get_root`, the `merkle` root of all the digests so far; each append's loop turns once for each
level of the tree. -/
theorem append_returns_merkle_root [Inhabited D] (ds : List D) (d : D)
    (hlen : ds.length + 1 < 2 ^ 64) :
    ∃ t t', appendAll hashPair IncrementalMerkle.empty ds = some t ∧
      (calcluateMaxDepth (t.nodeCount + 1) - 1).toNat = Nat.clog 2 (ds.length + 1) ∧
      append hashPair t d = some (merkle hashPair (ds ++ [d]), t') ∧
      getRoot t' = some (merkle hashPair (ds ++ [d])) := by
  obtain ⟨t, hall, hinv⟩ := appendAll_spec ds merkleInv_empty (by simp; omega)
  rw [List.nil_append] at hinv
  obtain ⟨root, t', hroot, happ, hinv'⟩ := append_spec hinv d hlen
  have hne : ds ++ [d] ≠ [] := by simp
  rw [merkle_eq_treeRoot hne, Option.some_inj] at hroot
  refine ⟨t, t', hall, append_depth hinv hlen, hroot ▸ happ, ?_⟩
  rw [getRoot_eq_treeRoot hinv' hne, merkle_eq_treeRoot hne]

theorem append_returns_merkle_root_four :
    [1, 2, 3].length + 1 < 2 ^ 64 ∧
      ∃ t t', appendAll Nat.add IncrementalMerkle.empty [1, 2, 3] = some t ∧
        (calcluateMaxDepth (t.nodeCount + 1) - 1).toNat = Nat.clog 2 ([1, 2, 3].length + 1) ∧
        append Nat.add t 4 = some (merkle Nat.add ([1, 2, 3] ++ [4]), t') ∧
        getRoot t' = some (merkle Nat.add ([1, 2, 3] ++ [4])) :=
  ⟨by decide, append_returns_merkle_root [1, 2, 3] 4 (by decide)⟩

/-- After `n` appends the tree keeps the root of one complete subtree for each set bit of `n`,
and the root of the whole tree unless `n` is a power of two: `popcount n` nodes, plus one. -/
theorem active_nodes_count (ds : List D) (hds : ds ≠ []) (hlen : ds.length < 2 ^ 64) :
    ∃ t, appendAll hashPair IncrementalMerkle.empty ds = some t ∧
      t.nodeCount.toNat = ds.length ∧ t.activeNodes = activeNodesOf hashPair ds ∧
      t.activeNodes.length = ((List.range 64).filter ds.length.testBit).length +
        if ds.length = 2 ^ ds.length.log2 then 0 else 1 := by
  obtain ⟨t, hall, hinv⟩ := appendAll_spec ds merkleInv_empty (by simpa using hlen)
  rw [List.nil_append] at hinv
  obtain ⟨root, hroot⟩ : ∃ root, treeRoot hashPair ds = some root := exists_treeRoot hds
  -- every set bit of the count has its complete subtree
  have hsome : ∀ i ∈ (List.range 64).filter ds.length.testBit,
      (subtreeRoot hashPair ds i).isSome := by
    intro i hi
    obtain ⟨y, hy, -⟩ := subtreeRoot_of_testBit (ds.head hds) (List.of_mem_filter hi)
    rw [hy]
    rfl
  refine ⟨t, hall, hinv.nodeCount, hinv.activeNodes, ?_⟩
  rw [hinv.activeNodes, activeNodesOf, List.length_append, List.length_filterMap_eq_countP,
    List.countP_eq_length.2 hsome, hroot]
  split_ifs <;> rfl

theorem active_nodes_count_five :
    [1, 2, 3, 4, 5] ≠ [] ∧ [1, 2, 3, 4, 5].length < 2 ^ 64 ∧
      ∃ t, appendAll Nat.add IncrementalMerkle.empty [1, 2, 3, 4, 5] = some t ∧
        t.nodeCount.toNat = [1, 2, 3, 4, 5].length ∧
        t.activeNodes = activeNodesOf Nat.add [1, 2, 3, 4, 5] ∧
        t.activeNodes.length = ((List.range 64).filter [1, 2, 3, 4, 5].length.testBit).length +
          if [1, 2, 3, 4, 5].length = 2 ^ [1, 2, 3, 4, 5].length.log2 then 0 else 1 :=
  ⟨by decide, by decide, active_nodes_count [1, 2, 3, 4, 5] (by decide) (by decide)⟩

end Tree

end Merkle
end Safeos
