import Safeos.Staking
import Safeos.Types
import Mathlib

/-!
# Boosted accounts (`contracts/eosio.system`: `bidjit`, `boost`, `cancelboost`, `onblock`)

The system contract keeps a `jitbid` singleton, an auction for one slot of the `boost` table,
whose rows are the accelerated accounts. It starts with `jit_remains = 100` free slots and the
two rows of `eosio` and `eosio.token`, which never expire. `bidjit` outbids the current bidder,
whose bid `eosio.jit` refunds; every six hours `onblock` erases the expired rows, freeing their
slots, and gives the highest bidder a slot for seven days (or seven more days). `boost` and
`cancelboost`, for `eosio` only, add and erase rows that never expire.

`jit_remains` is a `uint64_t` and every change to it is an increment or a decrement, done in
`UInt64` as the code does. The inline token transfers run after the action's own checks, in
the order they were sent. `onblock` is modelled from its boost block on, which it reaches once
the chain is activated and the producer schedule is due for an update.
-/

namespace Safeos
namespace System

open Token (requireAuth)

/-- `N(eosio.jit)`, the account that holds the bids. -/
def eosioJit : Name := stringToName "eosio.jit".toList

/-- `useconds_per_jitbid`, seven days. -/
def usecondsPerJitbid : UInt64 := 7 * 24 * 3600 * 1000000

/-- `jit_bid_interval`, six hours. -/
def jitBidInterval : UInt64 := 6 * 3600 * 1000000

/-- `jit_bid`, the singleton `jitbid`. -/
structure JitBid where
  highBidder : Name
  highBid : Int
  lastBidTime : UInt64
  startBidTime : UInt64
  jitRemains : UInt64
deriving DecidableEq, Repr

/-- `boost_account`, a row of `boost`. -/
structure BoostAccount where
  account : Name
  expiration : UInt64
deriving DecidableEq, Repr

/-- The token tables, the `jitbid` singleton and the `boost` table. -/
structure JitState where
  token : Token.State
  jitbid : JitBid
  boost : AList (fun _ : Name => BoostAccount)

/-- The constructor of `system_contract` the first time it runs, at time `now`: 100 free slots,
and the rows of `eosio` and `eosio.token`, which never expire. -/
def JitState.init (now : UInt64) : JitState where
  token := Token.State.init
  jitbid :=
    { highBidder := ⟨0⟩
      highBid := 0
      lastBidTime := 0
      startBidTime := now
      jitRemains := 100 }
  boost := ((∅ : AList (fun _ : Name => BoostAccount)).insert Config.systemAccountName
      ⟨Config.systemAccountName, UInt64.ofInt (-1)⟩).insert (stringToName "eosio.token".toList)
    ⟨stringToName "eosio.token".toList, UInt64.ofInt (-1)⟩

/-- `system_contract::bidjit`. -/
def bidjit (env : Token.Env) (auths : List Name) (now : UInt64) (s : JitState) (bidder : Name)
    (bid : Asset) : Except String JitState := do
  requireAuth auths bidder
  eosioAssert (bid.symbol == asset0.symbol) "asset must be system token"
  eosioAssert (bid.amount > 0) "insufficient bid"
  let current := s.jitbid
  eosioAssert (int64 (bid.amount - current.highBid) > current.highBid.tdiv 10)
    "must increase bid by 10%"
  eosioAssert (current.highBidder != bidder) "account is already highest bidder"
  eosioAssert (current.jitRemains > 0) "no jit resources left!"
  let refund ← if current.highBidder.value != 0 then
      some <$> Asset.make current.highBid coreSymbol else pure none
  let jitbid := { current with highBidder := bidder, highBid := bid.amount, lastBidTime := now }
  let bidderStr := String.ofList (Eosiolib.nameToString bidder.value)
  -- the inline transfers, in the order they were sent
  let token ← Token.transfer env [bidder] s.token bidder eosioJit bid ("bid jit " ++ bidderStr)
  let refundTransfer := fun q =>
    Token.transfer env [eosioJit] token eosioJit current.highBidder q ("refund bid to " ++ bidderStr)
  let token ← match refund with
    | some q => refundTransfer q
    | none => pure token
  pure { s with token, jitbid }

/-- `system_contract::boost`: a row that never expires, taking a slot. -/
def boost (env : Token.Env) (auths : List Name) (s : JitState) (account : Name) :
    Except String JitState := do
  requireAuth auths Config.systemAccountName
  eosioAssert (env.isAccount account) "account does not exist"
  eosioAssert (s.boost.lookup account).isNone "account already accelerated"
  let boost := s.boost.insert account ⟨account, UInt64.ofInt (-1)⟩
  let jitbid := { s.jitbid with jitRemains := s.jitbid.jitRemains - 1 }
  pure { s with boost, jitbid }

/-- `system_contract::cancelboost`: the row is erased and its slot freed. -/
def cancelboost (env : Token.Env) (auths : List Name) (s : JitState) (account : Name) :
    Except String JitState := do
  requireAuth auths Config.systemAccountName
  eosioAssert (env.isAccount account) "account does not exist"
  eosioAssert (s.boost.lookup account).isSome "account not in list"
  let boost := s.boost.erase account
  let jitbid := { s.jitbid with jitRemains := s.jitbid.jitRemains + 1 }
  pure { s with boost, jitbid }

/-- The rows of the `boost` table. -/
def boostRows (t : AList (fun _ : Name => BoostAccount)) : List BoostAccount :=
  t.entries.map Sigma.snd

/-- The second loop of `onblock`'s boost block: each expired account still in the table is
erased, freeing its slot. -/
def eraseExpired (t : AList (fun _ : Name => BoostAccount)) (bid : JitBid) :
    List Name → AList (fun _ : Name => BoostAccount) × JitBid
  | [] => (t, bid)
  | a :: as =>
    if (t.lookup a).isSome then
      eraseExpired (t.erase a) { bid with jitRemains := bid.jitRemains + 1 } as
    else eraseExpired t bid as

/-- The boost block of `system_contract::onblock` at time `now`. -/
def jitOnblock (now : UInt64) (s : JitState) : JitState :=
  let bid := s.jitbid
  if now - bid.startBidTime < jitBidInterval then s
  else
    -- remove expired accounts; the table is walked in its own order, and which rows are
    -- erased does not depend on it
    let v := ((boostRows s.boost).filter fun b => b.expiration < now).map (·.account)
    let (boost, bid) := eraseExpired s.boost bid v
    if bid.jitRemains = 0 ∨ bid.highBid ≤ 0 then { s with boost, jitbid := bid }
    else
      let (boost, bid) := match boost.lookup bid.highBidder with
        | some b => (boost.insert bid.highBidder
            { b with expiration := b.expiration + usecondsPerJitbid }, bid)
        | none => (boost.insert bid.highBidder ⟨bid.highBidder, now + usecondsPerJitbid⟩,
            { bid with jitRemains := bid.jitRemains - 1 })
      { s with
        boost
        jitbid := { bid with highBidder := ⟨0⟩, highBid := 0, lastBidTime := 0, startBidTime := now } }

/-- The actions that write `jitbid` and `boost`, and the token actions beside them. -/
inductive JitAction where
  | bidjit (bidder : Name) (bid : Asset)
  | boost (account : Name)
  | cancelboost (account : Name)
  | onblock
  | token (act : Token.Action)

/-- An action with its authorizers and the time of its block. -/
structure JitRequest where
  auths : List Name
  now : UInt64
  act : JitAction

/-- One action, completed or aborted as a whole. -/
def jitStep (env : Token.Env) (s : JitState) (r : JitRequest) : Except String JitState :=
  match r.act with
  | .bidjit bidder bid => bidjit env r.auths r.now s bidder bid
  | .boost account => boost env r.auths s account
  | .cancelboost account => cancelboost env r.auths s account
  | .onblock => do
    requireAuth r.auths Config.systemAccountName
    pure (jitOnblock r.now s)
  | .token act => do
    let token ← Token.step env s.token ⟨r.auths, act⟩
    pure { s with token }

end System
end Safeos
