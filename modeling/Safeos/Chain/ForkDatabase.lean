import Safeos.Chain.BlockHeaderState

/-!
# The fork database (`chain/fork_database.cpp`)

The block states a node knows above its last irreversible block, in a multi-index container:
unique by id, and ordered by previous id, by block number (blocks in the current chain first
among equal numbers), and by irreversibility (highest `dpos_irreversible_blocknum`, then
`bft_irreversible_blocknum`, then block number first). The head is the first block of the last
order. `add` inserts a block, takes the new head, and prunes the oldest block once the head's
irreversible block is above it: the pruned block is signalled irreversible and erased, and every
other block of its height is removed with its descendants. `set_bft_irreversible` raises the BFT
irreversible block of a block and, breadth first, of the blocks built on it.

The container is the list of its blocks in insertion order; an ordered index's first element is
the earliest in the list among the least, as Boost places a new element after those with an equal
key. `mark_in_current_chain` and `set_bft_irreversible` change a block's `by_block_num` or
`by_lib_block_num` key through `modify`, which re-links the block after the others of its new key;
the model leaves it where it was in the list. So among equal keys the model's order is the order
of insertion, and the container's order is that order only until such a `modify`. The irreversible
signal is the list of the blocks `prune` passes to it. Block ids are
opaque numbers. The loops whose bound is not syntactic (`prune`'s recursion, `remove`'s queue,
the layers of `set_bft_irreversible`, the walks of `fetch_branch_from`) take fuel, which the
callers size by the number of blocks.
-/

namespace Safeos

/-- `block_state`, with the fields the fork database and the controller read. -/
structure BlockState where
  id : Nat
  previous : Nat
  blockNum : UInt32
  dposIrreversibleBlocknum : UInt32
  bftIrreversibleBlocknum : UInt32
  inCurrentChain : Bool
  validated : Bool
deriving DecidableEq, Repr

/-- The first element of an ordered non-unique index: the earliest inserted among those no
other element comes `before`. -/
def firstBy {α : Type} (before : α → α → Bool) : List α → Option α
  | [] => none
  | a :: l => some (l.foldl (fun m x => if before x m then x else m) a)

namespace BlockState

/-- The `by_block_num` order: lower block numbers first, blocks in the current chain first. -/
def byBlockNumBefore (a b : BlockState) : Bool :=
  a.blockNum < b.blockNum || (a.blockNum == b.blockNum && a.inCurrentChain && !b.inCurrentChain)

/-- The `by_lib_block_num` order: higher irreversible blocks first, then higher block numbers. -/
def byLibBlockNumBefore (a b : BlockState) : Bool :=
  a.dposIrreversibleBlocknum > b.dposIrreversibleBlocknum ||
    (a.dposIrreversibleBlocknum == b.dposIrreversibleBlocknum &&
      (a.bftIrreversibleBlocknum > b.bftIrreversibleBlocknum ||
        (a.bftIrreversibleBlocknum == b.bftIrreversibleBlocknum && a.blockNum > b.blockNum)))

end BlockState

/-- `fork_database`: the index, and the head block. -/
structure ForkDatabase where
  index : List BlockState
  head : Option BlockState

namespace ForkDatabase

/-- `get_block`. -/
def getBlock (db : ForkDatabase) (id : Nat) : Option BlockState :=
  db.index.find? (·.id == id)

/-- `set`: insert a block; it becomes the head when it is higher than the head. -/
def set (db : ForkDatabase) (s : BlockState) : Except String ForkDatabase := do
  eosioAssert (db.index.all (·.id != s.id)) "unable to insert block state, duplicate state detected"
  let head := match db.head with
    | none => s
    | some head => if head.blockNum < s.blockNum then s else head
  pure ⟨db.index ++ [s], some head⟩

/-- The queue of `remove`: erase the block at the front, and queue its children. -/
def removeQueue : Nat → List Nat → List BlockState → List BlockState
  | 0, _, index => index
  | _, [], index => index
  | fuel + 1, id :: queue, index =>
    let index := index.filter (·.id != id)
    removeQueue fuel (queue ++ (index.filter (·.previous == id)).map (·.id)) index

/-- `remove`: erase a block and everything built on it; the head is taken again. -/
def remove (db : ForkDatabase) (id : Nat) : ForkDatabase :=
  let index := removeQueue (db.index.length + 1) [id] db.index
  ⟨index, firstBy BlockState.byLibBlockNumBefore index⟩

/-- The end of `prune`: signal `h` irreversible and erase it, then remove the other blocks of its
height with their descendants (in any order: each removal takes a disjoint subtree, and the head
is taken again from what is left). -/
def pruneAt (db : ForkDatabase) (h : BlockState) : ForkDatabase × List BlockState :=
  let (db, irreversible) := match db.getBlock h.id with
    | some b => ({ db with index := db.index.filter (·.id != h.id) }, [b])
    | none => (db, [])
  ((db.index.filter (·.blockNum == h.blockNum)).foldl (fun db b => db.remove b.id) db, irreversible)

/-- `prune`: first prune, one at a time, the oldest blocks below `h`'s height, then `h`. Each
round erases the oldest block, so the index's size bounds the rounds. -/
def prune : Nat → ForkDatabase → BlockState → ForkDatabase × List BlockState
  | 0, db, _ => (db, [])
  | fuel + 1, db, h =>
    match firstBy BlockState.byBlockNumBefore db.index with
    | some oldest =>
      if oldest.blockNum < h.blockNum then
        let (db, irreversible₁) := prune fuel db oldest
        let (db, irreversible₂) := prune fuel db h
        (db, irreversible₁ ++ irreversible₂)
      else db.pruneAt h
    | none => db.pruneAt h

/-- `add`: insert a block, take the head, and prune the oldest block when it lies below the
head's irreversible block. Returns the blocks signalled irreversible. -/
def add (db : ForkDatabase) (n : BlockState) : Except String (ForkDatabase × List BlockState) := do
  eosioAssert (db.index.all (·.id != n.id)) "duplicate block added?"
  let index := db.index ++ [n]
  let head := firstBy BlockState.byLibBlockNumBefore index
  let db : ForkDatabase := ⟨index, head⟩
  match head, firstBy BlockState.byBlockNumBefore index with
  | some head, some oldest =>
    if oldest.blockNum < head.dposIrreversibleBlocknum then
      pure (db.prune (index.length + 1) oldest)
    else pure (db, [])
  | _, _ => pure (db, [])

/-! ## Two branches, pruned from the wrong one -/

/-- A block state whose flags are unset, as in the irreversible read mode. -/
def unmarkedBlock (id previous : Nat) (blockNum dposIrreversibleBlocknum : UInt32) : BlockState :=
  ⟨id, previous, blockNum, dposIrreversibleBlocknum, 0, false, false⟩

/-- Block 1, and two branches the system account signs on it: `A` (blocks 2 and 3) and `B`
(blocks 2, 3 and 4). -/
def forkRoot : BlockState := unmarkedBlock 1 0 1 0
def forkA2 : BlockState := unmarkedBlock 2 1 2 0
def forkB2 : BlockState := unmarkedBlock 3 1 2 0
def forkA3 : BlockState := unmarkedBlock 4 2 3 2
def forkB3 : BlockState := unmarkedBlock 5 3 3 2
def forkB4 : BlockState := unmarkedBlock 6 5 4 3

/-- The header states of those blocks, each built by `next` on its parent's (slots 1 to 5). -/
def twoBranchHeaderStates : Except String (List (BlockHeaderState Nat)) := do
  let root : BlockHeaderState Nat := BlockHeaderState.genesis 0 ⟨0⟩
  let signed (slot : UInt32) := BlockHeaderState.signedHeader slot
    BlockHeaderState.systemProducerKey 0 0 none
  let a2 ← root.next (signed 1) false
  let b2 ← root.next (signed 2) false
  let a3 ← a2.next (signed 3) false
  let b3 ← b2.next (signed 4) false
  let b4 ← b3.next (signed 5) false
  pure [root, a2, b2, a3, b3, b4]

/-- The blocks carry the numbers `next` gives them. Added in turn, with no flag set: adding `A3`
prunes and signals block 1; adding `B4` makes it the head (highest irreversible block, 3), and
the oldest block, at height 2 < 3, is `A2`, inserted before `B2`. `A2` is signalled
irreversible, though the head `B4` descends from `B2`; then `B2` is removed with `B3` and `B4`,
and `A3` is left as the head. -/
theorem add_prunes_off_head_branch :
    twoBranchHeaderStates.map (·.map fun s => (s.blockNum, s.dposIrreversibleBlocknum)) =
        .ok ([forkRoot, forkA2, forkB2, forkA3, forkB3, forkB4].map fun b =>
          (b.blockNum, b.dposIrreversibleBlocknum)) ∧
      (do
        let db ← (⟨[], none⟩ : ForkDatabase).set forkRoot
        let db ← Transition.runAll (fun (db : ForkDatabase) n => (db.add n).map Prod.fst) db
          [forkA2, forkB2, forkA3, forkB3]
        let (db', irreversible) ← db.add forkB4
        pure (firstBy BlockState.byLibBlockNumBefore (db.index ++ [forkB4]), irreversible,
          db'.index, db'.head)) =
        .ok (some forkB4, [forkA2], [forkA3], some forkA3) := by
  decide

/-- The first two loops of `fetch_branch_from`: walk `b` down its parents until its block number
is at most `num`, collecting the blocks left behind. -/
def walkDown (db : ForkDatabase) : Nat → BlockState → UInt32 → List BlockState →
    Except String (BlockState × List BlockState)
  | fuel, b, num, branch =>
    if num < b.blockNum then
      match fuel with
      | 0 => throw "block walk out of fuel"
      | fuel + 1 =>
        match db.getBlock b.previous with
        | some p => walkDown db fuel p num (branch ++ [b])
        | none => throw "block ${id} does not exist"
    else pure (b, branch)

/-- The third loop of `fetch_branch_from`: walk both blocks down together until they have the
same parent. -/
def walkTogether (db : ForkDatabase) : Nat → BlockState → BlockState → List BlockState →
    List BlockState → Except String (BlockState × BlockState × List BlockState × List BlockState)
  | fuel, b₁, b₂, branch₁, branch₂ =>
    if b₁.previous != b₂.previous then
      match fuel with
      | 0 => throw "block walk out of fuel"
      | fuel + 1 =>
        match db.getBlock b₁.previous, db.getBlock b₂.previous with
        | some p₁, some p₂ => walkTogether db fuel p₁ p₂ (branch₁ ++ [b₁]) (branch₂ ++ [b₂])
        | _, _ => throw "either block ${fid} or ${sid} does not exist"
    else pure (b₁, b₂, branch₁, branch₂)

/-- `fetch_branch_from`: the two branches from `first` and `second` down to their common
parent, each newest first. -/
def fetchBranchFrom (db : ForkDatabase) (first second : Nat) :
    Except String (List BlockState × List BlockState) := do
  let some b₁ := db.getBlock first | throw "block ${id} does not exist"
  let some b₂ := db.getBlock second | throw "block ${id} does not exist"
  let fuel := db.index.length
  let (b₁, branch₁) ← db.walkDown fuel b₁ b₂.blockNum []
  let (b₂, branch₂) ← db.walkDown fuel b₂ b₁.blockNum []
  let (b₁, b₂, branch₁, branch₂) ← db.walkTogether fuel b₁ b₂ branch₁ branch₂
  pure (branch₁ ++ [b₁], branch₂ ++ [b₂])

/-- `mark_in_current_chain`. A block is shared with its holders: its flag is read from the index
when it is there, and a block no longer in the index throws unless its flag already agrees. -/
def markInCurrentChain (db : ForkDatabase) (h : BlockState) (inCurrentChain : Bool) :
    Except String ForkDatabase :=
  let h := (db.getBlock h.id).getD h
  if h.inCurrentChain == inCurrentChain then pure db
  else match db.getBlock h.id with
    | none => throw "could not find block in fork database"
    | some _ => pure { db with
        index := db.index.map fun b => if b.id == h.id then { b with inCurrentChain } else b }

/-- One layer of `set_bft_irreversible`: for each block of the layer in turn, its children whose
BFT irreversible block is below `blockNum` take `blockNum`, and are collected for the next
layer. -/
def bftLayer (blockNum : UInt32) (layer : List Nat) (index : List BlockState) :
    List BlockState × List Nat :=
  layer.foldl (fun (index, updated) i =>
    let raise (b : BlockState) := b.previous == i && b.bftIrreversibleBlocknum < blockNum
    (index.map (fun b => if raise b then { b with bftIrreversibleBlocknum := blockNum } else b),
      updated ++ (index.filter raise).map (·.id)))
    (index, [])

/-- The loop of `set_bft_irreversible`: layer after layer, until a layer raises no block. A block
raised is not raised again, so the index's size bounds the layers. -/
def bftLoop (blockNum : UInt32) : Nat → List Nat → List BlockState → List BlockState
  | 0, _, index => index
  | _, [], index => index
  | fuel + 1, i :: queue, index =>
    let (index, queue) := bftLayer blockNum (i :: queue) index
    bftLoop blockNum fuel queue index

/-- `set_bft_irreversible`: the block becomes BFT irreversible at its own number, and the blocks
built on it are raised to that number, down to those already as high. The head is one of the
blocks, and is read back from the index. -/
def setBftIrreversible (db : ForkDatabase) (id : Nat) : ForkDatabase :=
  match db.getBlock id with
  | none => db
  | some b =>
    let index := db.index.map fun x =>
      if x.id == id then { x with bftIrreversibleBlocknum := x.blockNum } else x
    let index := bftLoop b.blockNum (index.length + 1) [id] index
    ⟨index, db.head.map fun h => (index.find? (·.id == h.id)).getD h⟩

/-- `set_validity`: an invalid block is removed with its descendants; a valid one is marked
validated. -/
def setValidity (db : ForkDatabase) (h : BlockState) (valid : Bool) : ForkDatabase :=
  if !valid then db.remove h.id
  else { db with index := db.index.map fun b => if b.id == h.id then { b with validated := true } else b }

end ForkDatabase

end Safeos
