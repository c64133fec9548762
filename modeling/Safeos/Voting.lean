import Safeos.Staking
import Mathlib

/-!
# Votes and proxies (`contracts/eosio.system/voting.cpp`)

Every account that has staked has a row in `voters`: its stake, and either the producers it
votes for or the proxy it votes through. An account that `regproxy` registers as a proxy votes
with its own stake and with the weight its voters give it (`proxied_vote_weight`).
`update_votes` records a voter's choice: the weight the voter cast last time is taken back from
the old producers or proxy, and the new weight given to the new ones. `propagate_weight_change`
passes a change of a voter's weight on to its proxy, recursively along the proxies' own proxies,
or, at the end of the chain, to the producers.

Vote weights are `double`s, here `Float`, computed as the code computes them; no proof reads
their values. The recursion of `propagate_weight_change` has no bound in the code: here it takes
fuel, and the actions give it the number of voters. When the fuel runs out the model throws
`outOfFuel`, where the code would go on recursing.

`delegatebw` and `undelegatebw` reach these tables through the voting block of `changebw`
(`changebwVotes`), which adds the stake delta to the voter's row and refreshes its vote. The
blocks of `changebw` before it write the tables of `Safeos.Staking` and can only abort the
action here, as can the vesting check of `b1` after it; the action `changebw` of this module
runs the voting block for any account and deltas, so its runs include those of the two actions.
-/

namespace Safeos
namespace System
namespace Voting

open Token (requireAuth getRow)

/-- `block_timestamp::block_timestamp_epoch`, the year 2000 in milliseconds (`int64_t`). -/
def blockTimestampEpoch : Int := 946684800000

/-- `seconds_per_day`. -/
def secondsPerDay : UInt32 := 24 * 3600

/-- `voter_info`, a row of `voters`. -/
structure VoterInfo where
  owner : Name
  proxy : Name
  producers : List Name
  staked : Int
  lastVoteWeight : Float
  proxiedVoteWeight : Float
  isProxy : Bool
deriving Repr

/-- A new row of `voters`, with the defaults of `voter_info`. -/
def VoterInfo.empty (owner : Name) : VoterInfo :=
  { owner, proxy := ⟨0⟩, producers := [], staked := 0, lastVoteWeight := 0,
    proxiedVoteWeight := 0, isProxy := false }

/-- `eosio::public_key`: its type and 33 bytes. -/
structure PublicKey where
  type : UInt32
  data : Vector UInt8 33
deriving DecidableEq, Repr

/-- `public_key()`, the key of all zeros. -/
def PublicKey.default : PublicKey := ⟨0, Vector.replicate 33 0⟩

/-- `producer_info`, a row of `producers`, with the fields the voting actions read and write. -/
structure ProducerInfo where
  owner : Name
  totalVotes : Float
  producerKey : PublicKey
  isActive : Bool
  url : String
  location : UInt16
deriving Repr

/-- The tables of the voting actions: `voters`, `producers`, and the fields of `_gstate` they
write. -/
structure VotingState where
  voters : AList (fun _ : Name => VoterInfo)
  producers : AList (fun _ : Name => ProducerInfo)
  totalActivatedStake : Int
  threshActivatedStakeTime : UInt64
  totalProducerVoteWeight : Float

/-- The tables when the system contract is deployed. -/
def VotingState.init : VotingState := ⟨∅, ∅, 0, 0, 0⟩

/-- `stake2vote` at `current_time()` = `time`: the stake, doubled every 52 weeks since 2000. -/
def stake2vote (time : UInt64) (staked : Int) : Float :=
  let now : UInt32 := (time / 1000000).toUInt32
  -- `now()` is widened to the `int64_t` of the epoch, and divided as an `int64_t`
  let weeks : Int := ((now.toNat : Int) - blockTimestampEpoch / 1000).tdiv (secondsPerDay * 7).toNat
  Float.ofInt staked * Float.pow 2 (Float.ofInt weeks / 52)

/-- The model's fuel ran out: the code would recurse further. -/
def outOfFuel : String := "propagate_weight_change: out of fuel"

/-- The loop of `propagate_weight_change` at the end of a chain: each producer of the voter
gains `delta`, as does `_gstate.total_producer_vote_weight`. -/
def addToProducers (delta : Float) (producers : List Name) (s : VotingState) :
    Except String VotingState :=
  producers.foldlM (fun s acnt => do
    let p ← getRow s.producers acnt "producer not found"
    pure { s with
      producers := s.producers.insert acnt { p with totalVotes := p.totalVotes + delta }
      totalProducerVoteWeight := s.totalProducerVoteWeight + delta }) s

/-- `system_contract::propagate_weight_change`, for the row `voter`, with `fuel` calls left. -/
def propagateWeightChange (time : UInt64) : ℕ → VotingState → VoterInfo → Except String VotingState
  | 0, _, _ => throw outOfFuel
  | fuel + 1, s, voter => do
    eosioAssert (voter.proxy.value == 0 || !voter.isProxy)
      "account registered as a proxy is not allowed to use a proxy"
    let w := stake2vote time voter.staked
    let newWeight := if voter.isProxy then w + voter.proxiedVoteWeight else w
    -- don't propagate small changes (1 ~= epsilon)
    let s ← (if (newWeight - voter.lastVoteWeight).abs > 1 then
        if voter.proxy.value != 0 then do
          let proxy ← getRow s.voters voter.proxy "proxy not found"
          let proxy := { proxy with
            proxiedVoteWeight := proxy.proxiedVoteWeight + (newWeight - voter.lastVoteWeight) }
          propagateWeightChange time fuel { s with voters := s.voters.insert voter.proxy proxy } proxy
        else addToProducers (newWeight - voter.lastVoteWeight) voter.producers s
      else pure s)
    -- `voter` is the row itself, as the recursion left it
    let cur := (s.voters.lookup voter.owner).getD voter
    pure { s with voters := s.voters.insert voter.owner { cur with lastVoteWeight := newWeight } }

/-- The checks of `update_votes` on its arguments. -/
def validateVotes (voterName proxy : Name) (producers : List Name) : Except String Unit :=
  if proxy.value != 0 then do
    eosioAssert (producers.length == 0) "cannot vote for producers and proxy at same time"
    eosioAssert (voterName != proxy) "cannot proxy to self"
  else do
    eosioAssert (producers.length ≤ 30) "attempt to vote for too many producers"
    eosioAssert (decide (producers.IsChain fun a b => a.value < b.value))
      "producer votes must be unique and sorted"

/-- The first vote of a voter activates its stake; the time the activated stake first reaches
`min_activated_stake` is recorded. -/
def activateStake (time : UInt64) (staked : Int) (s : VotingState) : VotingState :=
  let totalActivatedStake := int64 (s.totalActivatedStake + staked)
  { s with
    totalActivatedStake
    threshActivatedStakeTime :=
      if totalActivatedStake ≥ minActivatedStake ∧ s.threshActivatedStakeTime = 0 then time
      else s.threshActivatedStakeTime }

/-- The `producer_deltas` of `update_votes`: a `flat_map`, kept sorted by account. -/
abbrev ProducerDeltas := List (Name × Float × Bool)

/-- `producer_deltas[p]`, changed by `f`: `operator[]` first adds `(0, false)` under `p`, in
key order, when `p` has no entry. -/
def modifyDelta (p : Name) (f : Float × Bool → Float × Bool) : ProducerDeltas → ProducerDeltas
  | [] => [(p, f (0, false))]
  | (q, d) :: rest =>
    if p.value < q.value then (p, f (0, false)) :: (q, d) :: rest
    else if p.value = q.value then (q, f d) :: rest
    else (q, d) :: modifyDelta p f rest

/-- The block of `update_votes` that takes back the weight `voter` cast last time: from its
old proxy, passed on along the chain, or from its producers. -/
def takeBackVotes (time : UInt64) (fuel : ℕ) (voter : VoterInfo) (s : VotingState) :
    Except String (VotingState × ProducerDeltas) :=
  if voter.lastVoteWeight > 0 then
    if voter.proxy.value != 0 then do
      let oldProxy ← getRow s.voters voter.proxy "old proxy not found"
      let oldProxy := { oldProxy with
        proxiedVoteWeight := oldProxy.proxiedVoteWeight - voter.lastVoteWeight }
      let s ← propagateWeightChange time fuel
        { s with voters := s.voters.insert voter.proxy oldProxy } oldProxy
      pure (s, [])
    else
      pure (s, voter.producers.foldl (fun m p =>
        modifyDelta p (fun d => (d.1 - voter.lastVoteWeight, false)) m) [])
  else pure (s, [])

/-- The block of `update_votes` that gives the new weight to the new proxy, passed on along
the chain, or to the new producers. -/
def castVotes (time : UInt64) (fuel : ℕ) (voting : Bool) (proxy : Name) (producers : List Name)
    (newVoteWeight : Float) (s : VotingState) (deltas : ProducerDeltas) :
    Except String (VotingState × ProducerDeltas) :=
  if proxy.value != 0 then do
    let newProxy ← getRow s.voters proxy "invalid proxy specified"
    eosioAssert (!voting || newProxy.isProxy) "proxy not found"
    if newVoteWeight ≥ 0 then
      let newProxy := { newProxy with
        proxiedVoteWeight := newProxy.proxiedVoteWeight + newVoteWeight }
      let s ← propagateWeightChange time fuel
        { s with voters := s.voters.insert proxy newProxy } newProxy
      pure (s, deltas)
    else pure (s, deltas)
  else if newVoteWeight ≥ 0 then
    pure (s, producers.foldl (fun m p => modifyDelta p (fun d => (d.1 + newVoteWeight, true)) m)
      deltas)
  else pure (s, deltas)

/-- One entry of `producer_deltas` applied to its producer. -/
def applyProducerDelta (voting : Bool) (s : VotingState) (pd : Name × Float × Bool) :
    Except String VotingState :=
  match s.producers.lookup pd.1 with
  | some p => do
    eosioAssert (!voting || p.isActive || !pd.2.2) "producer is not currently registered"
    let totalVotes := p.totalVotes + pd.2.1
    -- floating point arithmetics can give small negative numbers
    let totalVotes := if totalVotes < 0 then 0 else totalVotes
    pure { s with
      producers := s.producers.insert pd.1 { p with totalVotes }
      totalProducerVoteWeight := s.totalProducerVoteWeight + pd.2.1 }
  | none => do
    eosioAssert (!pd.2.2) "producer is not registered"
    pure s

/-- `system_contract::update_votes`. The recursion along the proxies gets one call for each
voter. -/
def updateVotes (time : UInt64) (voterName proxy : Name) (producers : List Name) (voting : Bool)
    (s : VotingState) : Except String VotingState := do
  validateVotes voterName proxy producers
  let fuel := s.voters.entries.length
  let voter ← getRow s.voters voterName "user must stake before they can vote"
  eosioAssert (proxy.value == 0 || !voter.isProxy)
    "account registered as a proxy is not allowed to use a proxy"
  let s := if voter.lastVoteWeight ≤ 0 then activateStake time voter.staked s else s
  let w := stake2vote time voter.staked
  let newVoteWeight := if voter.isProxy then w + voter.proxiedVoteWeight else w
  let (s, deltas) ← takeBackVotes time fuel voter s
  let (s, deltas) ← castVotes time fuel voting proxy producers newVoteWeight s deltas
  let s ← deltas.foldlM (applyProducerDelta voting) s
  let cur := (s.voters.lookup voterName).getD voter
  pure { s with
    voters := s.voters.insert voterName
      { cur with lastVoteWeight := newVoteWeight, producers, proxy } }

/-- `system_contract::voteproducer`. -/
def voteproducer (time : UInt64) (auths : List Name) (s : VotingState) (voterName proxy : Name)
    (producers : List Name) : Except String VotingState := do
  requireAuth auths voterName
  updateVotes time voterName proxy producers true s

/-- `system_contract::regproxy`. -/
def regproxy (time : UInt64) (auths : List Name) (s : VotingState) (proxy : Name)
    (isproxy : Bool) : Except String VotingState := do
  requireAuth auths proxy
  match s.voters.lookup proxy with
  | some pitr =>
    eosioAssert (isproxy != pitr.isProxy) "action has no effect"
    eosioAssert (!isproxy || pitr.proxy.value == 0)
      "account that uses a proxy is not allowed to become a proxy"
    let pitr := { pitr with isProxy := isproxy }
    propagateWeightChange time s.voters.entries.length
      { s with voters := s.voters.insert proxy pitr } pitr
  | none =>
    pure { s with voters := s.voters.insert proxy { VoterInfo.empty proxy with isProxy := isproxy } }

/-- The voting block of `changebw` for the account `from`: its stake changes by the sum of the
deltas, and a voter that has voted has its vote refreshed. -/
def changebwVotes (time : UInt64) (s : VotingState) («from» : Name)
    (stakeNetDelta stakeCpuDelta : Asset) : Except String VotingState := do
  let totalUpdate ← stakeNetDelta.addAssign stakeCpuDelta
  let fromVoter : VoterInfo := match s.voters.lookup «from» with
    | none => { VoterInfo.empty «from» with staked := totalUpdate.amount }
    | some v => { v with staked := int64 (v.staked + totalUpdate.amount) }
  let s := { s with voters := s.voters.insert «from» fromVoter }
  eosioAssert (0 ≤ fromVoter.staked) "stake for voting cannot be negative"
  if fromVoter.producers.length != 0 || fromVoter.proxy.value != 0 then
    updateVotes time «from» fromVoter.proxy fromVoter.producers false s
  else pure s

/-- `system_contract::regproducer`. -/
def regproducer (auths : List Name) (s : VotingState) (producer : Name) (producerKey : PublicKey)
    (url : String) (location : UInt16) : Except String VotingState := do
  eosioAssert (url.utf8ByteSize < 512) "url too long"
  eosioAssert (producerKey != PublicKey.default) "public key should not be the default value"
  requireAuth auths producer
  match s.producers.lookup producer with
  | some prod =>
    pure { s with
      producers := s.producers.insert producer { prod with producerKey, isActive := true, url, location } }
  | none =>
    pure { s with
      producers := s.producers.insert producer
        { owner := producer, totalVotes := 0, producerKey, isActive := true, url, location } }

/-- `system_contract::unregprod`: `producer_info::deactivate`. -/
def unregprod (auths : List Name) (s : VotingState) (producer : Name) :
    Except String VotingState := do
  requireAuth auths producer
  let prod ← getRow s.producers producer "producer not found"
  pure { s with
    producers := s.producers.insert producer
      { prod with producerKey := PublicKey.default, isActive := false } }

/-- The actions that write `voters` and `producers`. -/
inductive VotingAction where
  | voteproducer (voterName proxy : Name) (producers : List Name)
  | regproxy (proxy : Name) (isproxy : Bool)
  | changebw («from» : Name) (stakeNetDelta stakeCpuDelta : Asset)
  | regproducer (producer : Name) (producerKey : PublicKey) (url : String) (location : UInt16)
  | unregprod (producer : Name)

/-- An action with its authorizers and `current_time()`. -/
structure VotingRequest where
  auths : List Name
  time : UInt64
  act : VotingAction

/-- One action, completed or aborted as a whole. -/
def votingStep (s : VotingState) (r : VotingRequest) : Except String VotingState :=
  match r.act with
  | .voteproducer voterName proxy producers => voteproducer r.time r.auths s voterName proxy producers
  | .regproxy proxy isproxy => regproxy r.time r.auths s proxy isproxy
  | .changebw «from» net cpu => changebwVotes r.time s «from» net cpu
  | .regproducer producer key url location => regproducer r.auths s producer key url location
  | .unregprod producer => unregprod r.auths s producer

end Voting
end System
end Safeos
