import Safeos.Chain.ForkDatabase

/-!
# Switching forks (`chain/controller.cpp`)

The part of the controller that follows the fork database: `pop_block` undoes the head block and
moves the head to its parent, `apply_block` applies a block, and `maybe_switch_forks` moves the
controller's head to the fork database's head. That is one block applied on top of the head, or
a switch of branches: pop the blocks of the old branch, apply those of the new one oldest first,
and, when one of them throws, remove it from the fork database, pop what was applied of the new
branch and apply the old branch again before rethrowing.

The chain database is the stack of the blocks applied above the last irreversible block
(`pop_block` is `db.undo()`). What `apply_block` does to it is a parameter, `applyBlock`: it
either applies the block, pushed on the stack, or throws its exception and changes nothing.
A C++ exception leaves every change made before it in place, so the functions run in `EStateM`,
whose errors keep the state at the throw.

The code's `head` is a `block_state_ptr` that shares its block state with the fork database, so
the flags `mark_in_current_chain` and `set_validity` write later are seen through it. The model's
`head` is a copy taken when the head moves, whose `in_current_chain` and `validated` are those of
that moment. Of its head the controller reads only the id, the previous id and the block number,
which never change; the flags of a block are read from the fork database.
-/

namespace Safeos

/-- The controller state `maybe_switch_forks` reads and writes. -/
structure Controller where
  forkDb : ForkDatabase
  /-- a copy of the head block state: its flags are those of when it became the head -/
  head : BlockState
  /-- the ids of the blocks applied above the last irreversible block, oldest first -/
  applied : List Nat

namespace Controller

/-- A step of the controller that may throw, keeping the state at the throw. -/
abbrev ControllerM := EStateM String Controller

/-- Run a fork database step that may throw. -/
def liftExcept {α : Type} : Except String α → ControllerM α
  | .ok a => pure a
  | .error e => throw e

/-- `pop_block`. -/
def popBlock : ControllerM Unit := do
  let c ← get
  match c.forkDb.getBlock c.head.previous with
  | none => throw "attempt to pop beyond last irreversible block"
  | some prev => set { c with head := prev, applied := c.applied.dropLast }

/-- `apply_block`: the block is applied on the stack, or its exception is thrown. -/
def applyBlockM (applyBlock : BlockState → Option String) (b : BlockState) : ControllerM Unit := do
  match applyBlock b with
  | none => modify fun c => { c with applied := c.applied ++ [b.id] }
  | some e => throw e

def setHead (b : BlockState) : ControllerM Unit :=
  modify fun c => { c with head := b }

/-- `fork_db.mark_in_current_chain`. -/
def markInCurrentChain (b : BlockState) (inCurrentChain : Bool) : ControllerM Unit := do
  let c ← get
  let forkDb ← liftExcept (c.forkDb.markInCurrentChain b inCurrentChain)
  set { c with forkDb }

/-- `fork_db.set_validity`. -/
def setValidity (b : BlockState) (valid : Bool) : ControllerM Unit :=
  modify fun c => { c with forkDb := c.forkDb.setValidity b valid }

/-- The loop of `maybe_switch_forks` that applies the new branch, oldest block first; `done` are
the blocks of the branch applied so far, newest first. A block that throws is removed from the
fork database with its descendants (`set_validity(*ritr, false)`), the blocks from `ritr.base()`
on, which are `done`, are popped, and the old branch is applied again before the exception is
rethrown. -/
def applyNewBranch (applyBlock : BlockState → Option String) (oldBranch : List BlockState) :
    List BlockState → List BlockState → ControllerM Unit
  | [], _ => pure ()
  | b :: rest, done => do
    let except ← tryCatch (do
        applyBlockM applyBlock b
        setHead b
        markInCurrentChain b true
        setValidity b true
        pure none)
      (fun e => pure (some e))
    match except with
    | none => applyNewBranch applyBlock oldBranch rest (b :: done)
    | some e =>
      setValidity b false
      for a in done do
        markInCurrentChain a false
        popBlock
      let c ← get
      liftExcept (eosioAssert (some c.head.id == oldBranch.getLast?.map (·.previous))
        "loss of sync between fork_db and chainbase during fork switch reversal")
      for a in oldBranch.reverse do
        applyBlockM applyBlock a
        setHead a
        markInCurrentChain a true
      throw e

/-- `maybe_switch_forks`. -/
def maybeSwitchForks (applyBlock : BlockState → Option String) : ControllerM Unit := do
  let c ← get
  let some newHead := c.forkDb.head | throw "no fork database head"
  if newHead.previous == c.head.id then
    tryCatch (do
        applyBlockM applyBlock newHead
        markInCurrentChain newHead true
        setValidity newHead true
        setHead newHead)
      (fun e => do
        setValidity newHead false
        throw e)
  else if newHead.id != c.head.id then
    let (newBranch, oldBranch) ← liftExcept (c.forkDb.fetchBranchFrom newHead.id c.head.id)
    for b in oldBranch do
      markInCurrentChain b false
      popBlock
    let c ← get
    liftExcept (eosioAssert (some c.head.id == oldBranch.getLast?.map (·.previous))
      "loss of sync between fork_db and chainbase during fork switch")
    applyNewBranch applyBlock oldBranch newBranch.reverse []

/-! ## A switch that pops past the fork database -/

/-- Two branches on block 1, which is irreversible and no longer in the fork database: `A`
(blocks 2 and 3, applied and in the current chain) and `B` (blocks 2, 3 and 4). -/
def switchA2 : BlockState := ⟨2, 1, 2, 1, 0, true, true⟩
def switchA3 : BlockState := ⟨3, 2, 3, 1, 0, true, true⟩
def switchB2 : BlockState := ⟨4, 1, 2, 1, 0, false, false⟩
def switchB3 : BlockState := ⟨5, 4, 3, 1, 0, false, false⟩
def switchB4 : BlockState := ⟨6, 5, 4, 1, 0, false, false⟩

/-- The controller at the head `A3` of branch `A`, with the fork database's head at `B4`. -/
def switchController : Controller :=
  ⟨⟨[switchA2, switchA3, switchB2, switchB3, switchB4], some switchB4⟩, switchA3,
    [switchA2.id, switchA3.id]⟩

/-- Every block applies, but the switch to `B4` pops the old branch outside any `try`: `A3` pops,
then `A2`'s parent is not in the fork database and `pop_block` throws. The exception leaves the
head at `A2`, not `A3`, the stack without `A3`, and no block of the fork database in the current
chain (the head's copy was taken before `A2` was marked out). -/
theorem maybeSwitchForks_pop_throws :
    ∃ c, (maybeSwitchForks (fun _ => none)).run switchController =
        .error "attempt to pop beyond last irreversible block" c ∧
      c.head = switchA2 ∧ c.applied = [switchA2.id] ∧ c.forkDb.index.all (!·.inCurrentChain) := by
  refine ⟨_, rfl, ?_⟩
  decide

end Controller

end Safeos
