import Mathlib

/-!
# Merkle roots (`chain/merkle.cpp`, `chain/incremental_merkle.hpp`)

`merkle` hashes a list of digests round by round: an odd count is made even by repeating the
last digest, and each pair is hashed, until one digest is left. `incremental_merkle` is the same
tree grown one leaf at a time: `append` walks from the new leaf up to the root, and keeps in
`_active_nodes` the roots of the complete subtrees later appends need, with the current root
last. The block header state appends each block id to `blockroot_merkle` this way.

Digests are any type `D` with a default (`DigestType()`), and `hashPair l r` stands for
`DigestType::hash(make_canonical_pair(l, r))`. An append that would read `_active_nodes` past its
end, or `get_root` on a non-empty tree without nodes, is undefined in the code and `none` here.
-/

namespace Safeos
namespace Merkle

/-- `detail::next_power_of_2`: the bits below the highest bit of `value - 1` are set, then one
is added. -/
def nextPowerOf2 (value : UInt64) : UInt64 :=
  let value := value - 1
  let value := value ||| value >>> 1
  let value := value ||| value >>> 2
  let value := value ||| value >>> 4
  let value := value ||| value >>> 8
  let value := value ||| value >>> 16
  let value := value ||| value >>> 32
  value + 1

/-- `detail::clz_power_2`: for a power of two, the position of its bit. -/
def clzPower2 (value : UInt64) : Int :=
  let lz : Int := 64
  let lz := if value != 0 then lz - 1 else lz
  let lz := if value &&& 0x00000000FFFFFFFF != 0 then lz - 32 else lz
  let lz := if value &&& 0x0000FFFF0000FFFF != 0 then lz - 16 else lz
  let lz := if value &&& 0x00FF00FF00FF00FF != 0 then lz - 8 else lz
  let lz := if value &&& 0x0F0F0F0F0F0F0F0F != 0 then lz - 4 else lz
  let lz := if value &&& 0x3333333333333333 != 0 then lz - 2 else lz
  let lz := if value &&& 0x5555555555555555 != 0 then lz - 1 else lz
  lz

/-- `detail::calcluate_max_depth`. -/
def calcluateMaxDepth (nodeCount : UInt64) : Int :=
  if nodeCount = 0 then 0 else clzPower2 (nextPowerOf2 nodeCount) + 1

variable {D : Type} [Inhabited D] (hashPair : D → D → D)

/-- One round of `merkle`. Hashing in place, `ids[i]` is written after `ids[2 * i]` and
`ids[2 * i + 1]` are read, so the round reads only digests of the round before. The source counts
the pairs with an `int`, which overflows from `2^31` pairs on: the model is the code's round for
fewer than `2^32` digests, and what the code means it to be above. -/
def merkleRound (ids : List D) : List D :=
  let ids := if ids.length % 2 = 1 then ids ++ [ids.getLast!] else ids
  (List.range (ids.length / 2)).map fun i => hashPair ids[2 * i]! ids[2 * i + 1]!

/-- The loop of `merkle`, with a round of fuel for each digest: a round halves the count. -/
def merkleLoop : ℕ → List D → List D
  | 0, ids => ids
  | fuel + 1, ids => if ids.length > 1 then merkleLoop fuel (merkleRound hashPair ids) else ids

/-- `merkle`. -/
def merkle (ids : List D) : D :=
  if ids.length = 0 then default else (merkleLoop hashPair ids.length ids).head!

/-- `incremental_merkle_impl`. -/
structure IncrementalMerkle (D : Type) where
  nodeCount : UInt64
  activeNodes : List D

/-- The tree without nodes. -/
def IncrementalMerkle.empty : IncrementalMerkle D := ⟨0, []⟩

/-- The loop of `append`, one turn for each level below the root, with `partialNode` set once
the node reached is not fully realized. `active` is what is left of the previous active nodes,
and `updated` the new ones. -/
def appendLoop : ℕ → Bool → UInt64 → D → List D → List D → Option (D × List D)
  | 0, _, _, top, _, updated => some (top, updated)
  | depth + 1, partialNode, index, top, active, updated =>
    if index &&& 1 == 0 then
      -- a "left" value and an implied "right" identical to it make a partial node
      let updated := if partialNode then updated else updated ++ [top]
      appendLoop depth true (index >>> 1) (hashPair top top) active updated
    else
      -- a "right" value and a fully realized "left" from the previous active nodes
      match active with
      | [] => none
      | left :: active =>
        let updated := if partialNode then updated ++ [left] else updated
        appendLoop depth partialNode (index >>> 1) (hashPair left top) active updated

omit [Inhabited D] in
theorem appendLoop_left {depth : ℕ} {partialNode : Bool} {index : UInt64} {top : D}
    {active updated : List D} (h : (index &&& 1 == 0) = true) :
    appendLoop hashPair (depth + 1) partialNode index top active updated =
      appendLoop hashPair depth true (index >>> 1) (hashPair top top) active
        (if partialNode then updated else updated ++ [top]) := by
  rw [appendLoop.eq_def]
  simp only [if_pos h]

omit [Inhabited D] in
theorem appendLoop_right {depth : ℕ} {partialNode : Bool} {index : UInt64} {top left : D}
    {active updated : List D} (h : (index &&& 1 == 0) = false) :
    appendLoop hashPair (depth + 1) partialNode index top (left :: active) updated =
      appendLoop hashPair depth partialNode (index >>> 1) (hashPair left top) active
        (if partialNode then updated ++ [left] else updated) := by
  rw [appendLoop.eq_def]
  simp only [h, Bool.false_eq_true, if_false]

/-- `incremental_merkle_impl::append`: the new tree, and the new root it returns. -/
def append (t : IncrementalMerkle D) (digest : D) : Option (D × IncrementalMerkle D) := do
  let maxDepth := calcluateMaxDepth (t.nodeCount + 1)
  let (top, updated) ← appendLoop hashPair (maxDepth - 1).toNat false t.nodeCount digest
    t.activeNodes []
  pure (top, ⟨t.nodeCount + 1, updated ++ [top]⟩)

/-- `incremental_merkle_impl::get_root`. -/
def getRoot (t : IncrementalMerkle D) : Option D :=
  if t.nodeCount > 0 then t.activeNodes.getLast? else some default

/-- The digests appended in order, as `block_header_state` appends block ids. -/
def appendAll : IncrementalMerkle D → List D → Option (IncrementalMerkle D)
  | t, [] => some t
  | t, d :: ds => do
    let (_, t) ← append hashPair t d
    appendAll t ds

end Merkle
end Safeos
