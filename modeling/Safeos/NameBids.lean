import Safeos.Staking
import Safeos.Types
import Mathlib

/-!
# Name auctions (`contracts/eosio.system`: `bidname`, `onblock`, `native::newaccount`)

A name shorter than twelve characters is sold by auction. `bidname` opens a row of `namebids`
for the name or outbids the row's bidder, refunding the previous bid; once a day `onblock`
closes the auction of the row first in the `highbid` index, by negating its bid; the closed row
waits there until the winning bidder creates the account, when `native::newaccount` erases it.

The `highbid` index orders the rows by `by_high_bid`, which is `-high_bid` cast to `uint64_t`,
and then by primary key; `begin()` is its first row (`highBidBegin`). The actions' inline token
transfers run after the action's own checks and writes, in the order they were sent, and the
action completes or aborts with them.

`onblock` is modelled from its name-auction block on: the block is reached once the chain is
activated and the producer schedule is due for an update, and it reads
`_gstate.thresh_activated_stake_time`, which the voting actions write. Of `native::newaccount`
the model has the check on the account's name, which is what touches `namebids`; the `userres`
row and resource limits it then sets are left out.
-/

namespace Safeos
namespace System

open Token (requireAuth getRow)

/-- `N(eosio.names)`, the account that holds the bids. -/
def eosioNames : Name := stringToName "eosio.names".toList

/-- `blocks_per_day`, in half-second slots. -/
def blocksPerDay : UInt32 := 2 * 24 * 3600

/-- `useconds_per_day`. -/
def usecondsPerDay : UInt64 := 24 * 3600 * 1000000

/-- `name_bid`, a row of `namebids`: a negative `high_bid` is a closed auction waiting to be
claimed. -/
structure NameBid where
  newname : Name
  highBidder : Name
  highBid : Int
  lastBidTime : UInt64
deriving DecidableEq, Repr

/-- `name_bid::by_high_bid`: `static_cast<uint64_t>(-high_bid)`. -/
def NameBid.byHighBid (b : NameBid) : UInt64 := UInt64.ofInt (-b.highBid)

/-- Whether `b` comes before `c` in the `highbid` index: by `by_high_bid`, then by primary key. -/
def NameBid.precedes (b c : NameBid) : Bool :=
  b.byHighBid < c.byHighBid || (b.byHighBid == c.byHighBid && b.newname.value ≤ c.newname.value)

/-- `get_index<N(highbid)>().begin()`: the first row of the index, if there is one. -/
def highBidBegin : List NameBid → Option NameBid
  | [] => none
  | b :: bs =>
    match highBidBegin bs with
    | none => some b
    | some c => if b.precedes c then some b else some c

/-- The rows of a table. -/
def bidRows (t : AList (fun _ : Name => NameBid)) : List NameBid := t.entries.map Sigma.snd

/-- The token tables, `namebids`, and `_gstate.last_name_close` (a block timestamp, here its
slot). -/
structure AuctionState where
  token : Token.State
  namebids : AList (fun _ : Name => NameBid)
  lastNameClose : UInt32

/-- `system_contract::bidname`. -/
def bidname (env : Token.Env) (auths : List Name) (now : UInt64) (s : AuctionState)
    (bidder newname : Name) (bid : Asset) : Except String AuctionState := do
  requireAuth auths bidder
  eosioAssert (Eosiolib.nameSuffix newname.value == newname.value)
    "you can only bid on top-level suffix"
  eosioAssert (newname.value != 0) "the empty name is not a valid account name to bid on"
  eosioAssert (newname.value &&& 0xF == 0)
    "13 character names are not valid account names to bid on"
  eosioAssert (newname.value &&& 0x1F0 == 0)
    "accounts with 12 character names and no dots can be created without bidding required"
  eosioAssert (!env.isAccount newname) "account already exists"
  eosioAssert (bid.symbol == asset0.symbol) "asset must be system token"
  eosioAssert (bid.amount > 0) "insufficient bid"
  let nameStr := String.ofList (Eosiolib.nameToString newname.value)
  let bidTransfer := fun token =>
    Token.transfer env [bidder] token bidder eosioNames bid ("bid name " ++ nameStr)
  match s.namebids.lookup newname with
  | none => do
    let namebids := s.namebids.insert newname
      { newname, highBidder := bidder, highBid := bid.amount, lastBidTime := now }
    let token ← bidTransfer s.token
    pure { s with token, namebids }
  | some current => do
    eosioAssert (current.highBid > 0) "this auction has already closed"
    eosioAssert (int64 (bid.amount - current.highBid) > current.highBid.tdiv 10)
      "must increase bid by 10%"
    eosioAssert (current.highBidder != bidder) "account is already highest bidder"
    let refund ← Asset.make current.highBid coreSymbol
    let namebids := s.namebids.insert newname
      { current with highBidder := bidder, highBid := bid.amount, lastBidTime := now }
    -- the two inline transfers, in the order they were sent
    let token ← bidTransfer s.token
    let token ← Token.transfer env [eosioNames] token eosioNames current.highBidder refund
      ("refund bid on name " ++ nameStr)
    pure { s with token, namebids }

/-- The name-auction block of `system_contract::onblock`, at the block of slot `slot`, at time
`now`, with `_gstate.thresh_activated_stake_time = threshActivatedStakeTime`. -/
def closeNameAuction (now : UInt64) (slot : UInt32) (threshActivatedStakeTime : UInt64)
    (s : AuctionState) : AuctionState :=
  if slot - s.lastNameClose > blocksPerDay then
    match highBidBegin (bidRows s.namebids) with
    | some highest =>
      if highest.highBid > 0 ∧ highest.lastBidTime < now - usecondsPerDay ∧
          threshActivatedStakeTime > 0 ∧
          now - threshActivatedStakeTime > 14 * usecondsPerDay then
        { s with
          lastNameClose := slot
          namebids := s.namebids.insert highest.newname
            { highest with highBid := int64 (-highest.highBid) } }
      else s
    | none => s
  else s

/-- The loop of `native::newaccount` over the twelve 5-bit slots of a name: whether one of them
is a dot. -/
def hasDotLoop : Nat → UInt64 → Bool → Bool
  | 0, _, hasDot => hasDot
  | k + 1, tmp, hasDot => hasDotLoop k (tmp >>> 5) (hasDot || (tmp &&& 0x1f) == 0)

/-- The name check of `native::newaccount`: a name with a dot whose top-level suffix is the name
itself is claimed from its closed auction by the winning bidder; any other name with a dot may
only be created by its suffix. -/
def newaccount (self : Name) (s : AuctionState) (creator newact : Name) :
    Except String AuctionState := do
  if creator ≠ self then
    let hasDot := hasDotLoop 12 (newact.value >>> 4) false
    -- or is less than 12 characters
    if hasDot then
      let suffix := Eosiolib.nameSuffix newact.value
      if suffix == newact.value then
        let current ← getRow s.namebids newact "no active bid for name"
        eosioAssert (current.highBidder == creator) "only highest bidder can claim"
        eosioAssert (current.highBid < 0) "auction for name is not closed yet"
        pure { s with namebids := s.namebids.erase newact }
      else
        eosioAssert (creator.value == suffix) "only suffix may create this account"
        pure s
    else pure s
  else pure s

/-- The actions that write the auction's tables, and the token actions beside them. -/
inductive AuctionAction where
  | bidname (bidder newname : Name) (bid : Asset)
  | onblock (slot : UInt32) (threshActivatedStakeTime : UInt64)
  | newaccount (creator newact : Name)
  | token (act : Token.Action)

/-- An action with its authorizers and the time of its block. -/
structure AuctionRequest where
  auths : List Name
  now : UInt64
  act : AuctionAction

/-- One action, completed or aborted as a whole. -/
def auctionStep (env : Token.Env) (s : AuctionState) (r : AuctionRequest) :
    Except String AuctionState :=
  match r.act with
  | .bidname bidder newname bid => bidname env r.auths r.now s bidder newname bid
  | .onblock slot thresh => do
    requireAuth r.auths env.self
    pure (closeNameAuction r.now slot thresh s)
  | .newaccount creator newact => newaccount env.self s creator newact
  | .token act => do
    let token ← Token.step env s.token ⟨r.auths, act⟩
    pure { s with token }

/-- The tables when the system contract is deployed. -/
def AuctionState.init : AuctionState := ⟨Token.State.init, ∅, 0⟩

end System
end Safeos
