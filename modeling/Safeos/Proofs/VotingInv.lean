import Safeos.Voting
import Safeos.Lib.Pointers
import Safeos.Lib.Table
import Safeos.Proofs.TokenInv
import Mathlib

/-!
# Votes and proxies: the proxy graph stays acyclic

`proxy_graph_acyclic`: on every run of the voting actions from the deployment of the system
contract, a registered proxy has no proxy of its own, every proxy a voter names has a row, and
the graph with an edge from each voter to its proxy has no cycle (`VotersInv`).
`propagate_ends_within_voters`: so the recursion of `propagate_weight_change` from any voter
follows a chain of at most as many voters as there are, and fails only when a producer is
missing, never on its own assertion, a missing proxy or the model's fuel.

The actions write the graph in three ways: a row's weights and producers change, which leaves
its links (owner, proxy and flag, `VoterInfo.link`) alone (`SameLinks`); a new row is added with
no proxy (`VotersInv.insert_fresh`); and `update_votes` and `regproxy` rewrite one row
(`VotersInv.insert`). A new edge of `update_votes` leads to a registered proxy, which points
nowhere, so `Pointers.Acyclic.of_new_to_ends` keeps the graph acyclic; a vote refreshed by
`changebw` keeps its edge.
-/

namespace Safeos
namespace System
namespace Voting

open Pointers
open Token (getRow_eq_ok errorsIn_getRow)
open Except (ErrorsIn errorsIn_pure errorsIn_of_eq_ok errorsIn_throw)

/-- What places a row in the proxy graph: its owner, its proxy and whether it is a proxy. -/
def VoterInfo.link (r : VoterInfo) : Name × Name × Bool := (r.owner, r.proxy, r.isProxy)

/-- The proxy the voter `k` votes through, if it has a row and has set one. -/
def proxyOf (t : AList (fun _ : Name => VoterInfo)) (k : Name) : Option Name :=
  (t.lookup k).bind fun r => if r.proxy.value = 0 then none else some r.proxy

/-- The rows of `t'` are those of `t`, with the same links. -/
def SameLinks (t t' : AList (fun _ : Name => VoterInfo)) : Prop :=
  ∀ k, (t'.lookup k).map VoterInfo.link = (t.lookup k).map VoterInfo.link

/-- The voters' invariant: rows are stored under their owners, a proxy has no proxy, the
proxy a voter names has a row, and following proxies never comes back. -/
structure VotersInv (t : AList (fun _ : Name => VoterInfo)) : Prop where
  owner : ∀ {k r}, t.lookup k = some r → r.owner = k
  proxyFree : ∀ {k r}, t.lookup k = some r → r.isProxy → r.proxy.value = 0
  proxyRow : ∀ {k p}, proxyOf t k = some p → p ∈ t
  acyclic : Acyclic (proxyOf t)

section Links

variable {t t' t'' : AList (fun _ : Name => VoterInfo)} {k j : Name} {r r' : VoterInfo}

theorem VoterInfo.link_eq_iff :
    r'.link = r.link ↔ r'.owner = r.owner ∧ r'.proxy = r.proxy ∧ r'.isProxy = r.isProxy := by
  simp [VoterInfo.link]

theorem proxyOf_of_lookup (h : t.lookup k = some r) :
    proxyOf t k = if r.proxy.value = 0 then none else some r.proxy := by
  simp [proxyOf, h]

theorem proxyOf_eq_some : proxyOf t k = some j ↔ ∃ r, t.lookup k = some r ∧ r.proxy.value ≠ 0 ∧ r.proxy = j := by
  unfold proxyOf
  cases t.lookup k with
  | none => simp
  | some r => by_cases h : r.proxy.value = 0 <;> simp [h]

@[simp] theorem proxyOf_insert_self :
    proxyOf (t.insert k r) k = some j ↔ r.proxy.value ≠ 0 ∧ r.proxy = j := by
  by_cases h : r.proxy.value = 0 <;> simp [proxyOf, h]

@[simp] theorem proxyOf_insert_ne (hjk : j ≠ k) : proxyOf (t.insert k r) j = proxyOf t j := by
  simp [proxyOf, AList.lookup_insert_ne hjk]

theorem SameLinks.refl (t : AList (fun _ : Name => VoterInfo)) : SameLinks t t := fun _ => rfl

theorem SameLinks.symm (h : SameLinks t t') : SameLinks t' t := fun k => (h k).symm

theorem SameLinks.trans (h : SameLinks t t') (h' : SameLinks t' t'') : SameLinks t t'' :=
  fun k => (h' k).trans (h k)

/-- A row rewritten with its link kept. -/
theorem sameLinks_insert (hk : t.lookup k = some r) (hlink : r'.link = r.link) :
    SameLinks t (t.insert k r') := by
  intro j
  by_cases hj : j = k
  · subst hj
    simp [hk, hlink]
  · rw [AList.lookup_insert_ne hj]

theorem SameLinks.lookup (h : SameLinks t t') (hk : t.lookup k = some r) :
    ∃ r', t'.lookup k = some r' ∧ r'.link = r.link := by
  have := h k
  rw [hk] at this
  obtain ⟨r', hr', hlink⟩ := Option.map_eq_some_iff.1 this
  exact ⟨r', hr', hlink⟩

theorem SameLinks.mem_iff (h : SameLinks t t') : k ∈ t' ↔ k ∈ t := by
  rw [← AList.lookup_isSome, ← AList.lookup_isSome, ← Option.isSome_map (f := VoterInfo.link),
    h k, Option.isSome_map]

theorem SameLinks.proxyOf_eq (h : SameLinks t t') : proxyOf t' = proxyOf t := by
  funext k
  cases hk : t.lookup k with
  | none =>
    have hk' : t'.lookup k = none := by
      simpa [hk] using h k
    simp [proxyOf, hk, hk']
  | some r =>
    obtain ⟨r', hr', hlink⟩ := h.lookup hk
    have hproxy : r'.proxy = r.proxy := congrArg (fun l => l.2.1) hlink
    rw [proxyOf_of_lookup hk, proxyOf_of_lookup hr', hproxy]

/-- The same keys, so as many rows. -/
theorem SameLinks.length_eq (h : SameLinks t t') : t'.entries.length = t.entries.length := by
  have hperm : t'.keys.Perm t.keys :=
    (List.perm_ext_iff_of_nodup t'.keys_nodup t.keys_nodup).2 fun _ =>
      AList.mem_keys.trans (h.mem_iff.trans AList.mem_keys.symm)
  simpa [AList.keys, List.keys] using hperm.length_eq

end Links

section Inv

variable {t t' : AList (fun _ : Name => VoterInfo)} {k : Name} {r r' : VoterInfo}

theorem votersInv_empty : VotersInv ∅ where
  owner h := by simp at h
  proxyFree h := by simp at h
  proxyRow h := by simp [proxyOf] at h
  acyclic := by
    have : proxyOf (∅ : AList (fun _ : Name => VoterInfo)) = fun _ => none := by
      funext k
      simp [proxyOf]
    rw [this]
    exact acyclic_none

/-- The invariant reads only the rows' links. -/
theorem VotersInv.of_sameLinks (hinv : VotersInv t) (h : SameLinks t t') : VotersInv t' where
  owner hk := by
    obtain ⟨r, hr, hlink⟩ := h.symm.lookup hk
    rw [← hinv.owner hr]
    exact (VoterInfo.link_eq_iff.1 hlink).1.symm
  proxyFree hk hflag := by
    obtain ⟨r, hr, hlink⟩ := h.symm.lookup hk
    obtain ⟨-, hproxy, hflag'⟩ := VoterInfo.link_eq_iff.1 hlink
    rw [← hproxy]
    exact hinv.proxyFree hr (hflag'.trans hflag)
  proxyRow hk := by
    rw [h.proxyOf_eq] at hk
    exact h.mem_iff.2 (hinv.proxyRow hk)
  acyclic := h.proxyOf_eq ▸ hinv.acyclic

/-- A new row with no proxy: nothing points to it, since every proxy has a row, and it points
nowhere. -/
theorem VotersInv.insert_fresh (hinv : VotersInv t) (hk : k ∉ t) (howner : r.owner = k)
    (hproxy : r.proxy.value = 0) : VotersInv (t.insert k r) where
  owner hj := by
    rcases AList.lookup_insert_cases hj with ⟨rfl, rfl⟩ | ⟨-, hj⟩
    · exact howner
    · exact hinv.owner hj
  proxyFree hj hflag := by
    rcases AList.lookup_insert_cases hj with ⟨rfl, rfl⟩ | ⟨-, hj⟩
    · exact hproxy
    · exact hinv.proxyFree hj hflag
  proxyRow {j p} hj := by
    by_cases hjk : j = k
    · subst hjk
      exact absurd hproxy (proxyOf_insert_self.1 hj).1
    · rw [proxyOf_insert_ne hjk] at hj
      exact (AList.mem_insert _).2 (.inr (hinv.proxyRow hj))
  acyclic := hinv.acyclic.of_new_to_ends fun a b hab => by
    by_cases hak : a = k
    · subst hak
      exact absurd hproxy (proxyOf_insert_self.1 hab).1
    · rw [proxyOf_insert_ne hak] at hab
      exact .inl hab

/-- A row rewritten by `update_votes` or `regproxy`. A proxy sets no proxy, and a proxy that
is set is the old one, or a registered proxy other than the voter itself: that one points
nowhere, so the new edge closes no cycle. -/
theorem VotersInv.insert (hinv : VotersInv t) (hk : t.lookup k = some r) (howner : r'.owner = k)
    (hfree : r'.isProxy → r'.proxy.value = 0)
    (hlink : r'.proxy.value ≠ 0 → r'.proxy = r.proxy ∨
      (r'.proxy ≠ k ∧ ∃ q, t.lookup r'.proxy = some q ∧ q.isProxy)) :
    VotersInv (t.insert k r') where
  owner hj := by
    rcases AList.lookup_insert_cases hj with ⟨rfl, rfl⟩ | ⟨-, hj⟩
    · exact howner
    · exact hinv.owner hj
  proxyFree hj hflag := by
    rcases AList.lookup_insert_cases hj with ⟨rfl, rfl⟩ | ⟨-, hj⟩
    · exact hfree hflag
    · exact hinv.proxyFree hj hflag
  proxyRow {j p} hj := by
    by_cases hjk : j = k
    · subst hjk
      obtain ⟨hne, rfl⟩ := proxyOf_insert_self.1 hj
      refine (AList.mem_insert _).2 (.inr ?_)
      rcases hlink hne with heq | ⟨-, q, hq, -⟩
      · exact hinv.proxyRow (proxyOf_eq_some.2 ⟨r, hk, heq ▸ hne, heq.symm⟩)
      · exact AList.lookup_isSome.1 (by simp [hq])
    · rw [proxyOf_insert_ne hjk] at hj
      exact (AList.mem_insert _).2 (.inr (hinv.proxyRow hj))
  acyclic := hinv.acyclic.of_new_to_ends fun a b hab => by
    by_cases hak : a = k
    · subst hak
      obtain ⟨hne, rfl⟩ := proxyOf_insert_self.1 hab
      rcases hlink hne with heq | ⟨hbk, q, hq, hqp⟩
      · -- the edge was there before
        exact .inl (proxyOf_eq_some.2 ⟨r, hk, heq ▸ hne, heq.symm⟩)
      · -- the new proxy is registered, so it has no proxy
        refine .inr ?_
        rw [proxyOf_insert_ne hbk, proxyOf_of_lookup hq, if_pos (hinv.proxyFree hq hqp)]
    · rw [proxyOf_insert_ne hak] at hab
      exact .inl hab

end Inv

/-! ### What the actions do to the links -/

section Actions

variable {time : UInt64} {s s' : VotingState} {voter : VoterInfo}

/-- The producers' loop leaves the voters alone. -/
theorem addToProducers_voters {delta : Float} {ps : List Name}
    (h : addToProducers delta ps s = .ok s') : s'.voters = s.voters := by
  unfold addToProducers at h
  refine List.foldlM_except_inv (P := fun x _ => x.voters = s.voters) ?_ rfl h
  intro x acnt _ x' hx hstep
  simp only [Except.bind_eq_ok, Except.pure_eq_ok] at hstep
  obtain ⟨-, -, rfl⟩ := hstep
  exact hx

/-- The producers' loop fails only on a missing producer. -/
theorem addToProducers_error {delta : Float} {ps : List Name} {e : String}
    (h : addToProducers delta ps s = .error e) : e = "producer not found" := by
  unfold addToProducers at h
  obtain ⟨x, acnt, -, -, hstep⟩ :=
    List.foldlM_except_error (P := fun _ _ => True) (fun _ _ _ _ _ _ => trivial) trivial h
  rcases Except.bind_eq_error.1 hstep with hrow | ⟨p, -, hpure⟩
  · unfold Token.getRow at hrow
    split at hrow
    · simp at hrow
    · exact (Except.error.inj hrow).symm
  · exact absurd hpure Except.pure_ne_error

/-- `propagate_weight_change` rewrites weights only: the links stay. -/
theorem propagate_sameLinks {fuel : ℕ} (hinv : VotersInv s.voters)
    (hrow : s.voters.lookup voter.owner = some voter)
    (h : propagateWeightChange time fuel s voter = .ok s') : SameLinks s.voters s'.voters := by
  induction fuel generalizing s s' voter with
  | zero => simp [propagateWeightChange] at h
  | succ fuel ih =>
    simp only [propagateWeightChange, Except.bind_eq_ok, eosioAssert_eq_ok,
      Except.pure_eq_ok] at h
    obtain ⟨-, -, s2, hmid, rfl⟩ := h
    generalize (if voter.isProxy = true then stake2vote time voter.staked + voter.proxiedVoteWeight
      else stake2vote time voter.staked) = newWeight at hmid ⊢
    have hmid' : SameLinks s.voters s2.voters := by
      split_ifs at hmid
      · -- the proxy gains the change, and passes it on
        simp only [Except.bind_eq_ok, getRow_eq_ok] at hmid
        obtain ⟨p, hp, hrec⟩ := hmid
        have hpowner : p.owner = voter.proxy := hinv.owner hp
        have hrec' := fun hi hr => ih hi hr hrec
        refine SameLinks.trans ?_ (hrec' ?_ ?_)
        · exact sameLinks_insert hp rfl
        · exact hinv.of_sameLinks (sameLinks_insert hp rfl)
        · dsimp only
          rw [hpowner]
          exact AList.lookup_insert _
      · rw [addToProducers_voters hmid]
        exact .refl _
      · rw [Except.pure_eq_ok] at hmid
        rw [← hmid]
        exact .refl _
    -- the voter's own row, as the recursion left it, gets its new weight
    obtain ⟨cur, hcur, hlink⟩ := hmid'.lookup hrow
    rw [hcur, Option.getD_some]
    exact hmid'.trans (sameLinks_insert hcur (VoterInfo.link_eq_iff.2 ⟨rfl, rfl, rfl⟩))

/-- A call of `propagate_weight_change` on a row of a table with the invariant passes its
assertion and finds the proxy's row: it fails only on a missing producer, or where the
recursive call fails. -/
theorem propagate_succ_errors {n : ℕ} {k : Name} (hinv : VotersInv s.voters)
    (hrow : s.voters.lookup k = some voter)
    (hrec : ∀ q w, voter.proxy.value ≠ 0 → s.voters.lookup voter.proxy = some q →
      ErrorsIn (· = "producer not found") (propagateWeightChange time n
        { s with voters := s.voters.insert voter.proxy { q with proxiedVoteWeight := w } }
        { q with proxiedVoteWeight := w })) :
    ErrorsIn (· = "producer not found") (propagateWeightChange time (n + 1) s voter) := by
  have hassert : (voter.proxy.value == 0 || !voter.isProxy) = true := by
    cases hp : voter.isProxy
    · simp
    · simp [hinv.proxyFree hrow hp]
  simp only [propagateWeightChange]
  refine (errorsIn_of_eq_ok (a := ()) (eosioAssert_eq_ok.2 hassert)).bind fun _ _ => ?_
  generalize (if voter.isProxy = true then stake2vote time voter.staked + voter.proxiedVoteWeight
    else stake2vote time voter.staked) = newWeight
  refine Except.ErrorsIn.bind ?_ fun _ _ => errorsIn_pure _
  split_ifs with _ hproxy
  · -- the proxy has a row, since it is an edge of the graph
    have hedge : proxyOf s.voters k = some voter.proxy :=
      proxyOf_eq_some.2 ⟨voter, hrow, by simpa using hproxy, rfl⟩
    obtain ⟨q, hq⟩ := Option.isSome_iff_exists.1 (AList.lookup_isSome.2 (hinv.proxyRow hedge))
    refine (errorsIn_of_eq_ok (getRow_eq_ok.2 hq)).bind fun q' hq' => ?_
    rw [getRow_eq_ok, hq, Option.some.injEq] at hq'
    subst hq'
    exact hrec q _ (by simpa using hproxy) hq
  · exact fun _ he => addToProducers_error he
  · exact errorsIn_pure _

/-- Along a chain of proxies that ends within the fuel, `propagate_weight_change` fails only on
a missing producer: never on its assertion, a missing proxy or the fuel. -/
theorem propagate_errors {fuel : ℕ} {next : Name → Option Name} {k : Name}
    (hinv : VotersInv s.voters) (hnext : proxyOf s.voters = next)
    (hrow : s.voters.lookup k = some voter) (hends : EndsWithin next k fuel) :
    ErrorsIn (· = "producer not found") (propagateWeightChange time fuel s voter) := by
  induction hends generalizing s voter with
  | stop hnone =>
    refine propagate_succ_errors hinv hrow fun q w hproxy hq => ?_
    -- the chain ends here: the voter has no proxy, and the recursion is not reached
    have hedge : proxyOf s.voters _ = some voter.proxy := proxyOf_eq_some.2 ⟨voter, hrow, hproxy, rfl⟩
    rw [hnext, hnone] at hedge
    cases hedge
  | step hkb _ ih =>
    refine propagate_succ_errors hinv hrow fun q w hproxy hq => ?_
    -- the chain goes on through the proxy, whose row now carries the change
    have hedge : proxyOf s.voters _ = some voter.proxy := proxyOf_eq_some.2 ⟨voter, hrow, hproxy, rfl⟩
    rw [hnext, hkb, Option.some.injEq] at hedge
    subst hedge
    have hlinks : SameLinks s.voters (s.voters.insert voter.proxy { q with proxiedVoteWeight := w }) :=
      sameLinks_insert hq rfl
    exact ih (hinv.of_sameLinks hlinks) (hlinks.proxyOf_eq.trans hnext) (AList.lookup_insert _)

/-- A proxy's row gains a weight and passes it on: the links stay. -/
theorem passOn_sameLinks {fuel : ℕ} {k : Name} {q : VoterInfo} {w : Float}
    (hinv : VotersInv s.voters) (hq : s.voters.lookup k = some q)
    (h : propagateWeightChange time fuel
      { s with voters := s.voters.insert k { q with proxiedVoteWeight := w } }
      { q with proxiedVoteWeight := w } = .ok s') : SameLinks s.voters s'.voters := by
  have hlinks : SameLinks s.voters (s.voters.insert k { q with proxiedVoteWeight := w }) :=
    sameLinks_insert hq rfl
  refine hlinks.trans (propagate_sameLinks (hinv.of_sameLinks hlinks) ?_ h)
  dsimp only
  rw [hinv.owner hq]
  exact AList.lookup_insert _

theorem takeBackVotes_sameLinks {fuel : ℕ} {deltas : ProducerDeltas} (hinv : VotersInv s.voters)
    (h : takeBackVotes time fuel voter s = .ok (s', deltas)) : SameLinks s.voters s'.voters := by
  unfold takeBackVotes at h
  split_ifs at h
  · simp only [Except.bind_eq_ok, getRow_eq_ok, Except.pure_eq_ok, Prod.mk.injEq] at h
    obtain ⟨q, hq, s2, hrec, rfl, -⟩ := h
    exact passOn_sameLinks hinv hq hrec
  · simp only [Except.pure_eq_ok, Prod.mk.injEq] at h
    rw [← h.1]
    exact .refl _
  · simp only [Except.pure_eq_ok, Prod.mk.injEq] at h
    rw [← h.1]
    exact .refl _

/-- Casting the new vote keeps the links; a proxy it votes through has a row, registered as a
proxy when the voter votes in person. -/
theorem castVotes_sameLinks {fuel : ℕ} {voting : Bool} {proxy : Name} {producers : List Name}
    {w : Float} {deltas deltas' : ProducerDeltas} (hinv : VotersInv s.voters)
    (h : castVotes time fuel voting proxy producers w s deltas = .ok (s', deltas')) :
    SameLinks s.voters s'.voters ∧
      (proxy.value ≠ 0 → ∃ q, s.voters.lookup proxy = some q ∧ (voting = true → q.isProxy = true)) := by
  unfold castVotes at h
  split_ifs at h with hproxy
  · -- the new proxy gains the weight and passes it on
    simp only [Except.bind_eq_ok, getRow_eq_ok, eosioAssert_eq_ok, Except.pure_eq_ok,
      Prod.mk.injEq] at h
    obtain ⟨q, hq, -, hflag, s2, hrec, rfl, -⟩ := h
    exact ⟨passOn_sameLinks hinv hq hrec, fun _ => ⟨q, hq, fun hv => by simpa [hv] using hflag⟩⟩
  · -- a negative weight is not cast
    simp only [Except.bind_eq_ok, getRow_eq_ok, eosioAssert_eq_ok, Except.pure_eq_ok,
      Prod.mk.injEq] at h
    obtain ⟨q, hq, -, hflag, rfl, -⟩ := h
    exact ⟨.refl _, fun _ => ⟨q, hq, fun hv => by simpa [hv] using hflag⟩⟩
  all_goals
    simp only [Except.pure_eq_ok, Prod.mk.injEq] at h
    exact ⟨h.1 ▸ .refl _, fun hne => absurd (by simpa using hproxy) hne⟩

/-- Applying the producers' deltas leaves the voters alone. -/
theorem applyProducerDeltas_voters {voting : Bool} {deltas : ProducerDeltas}
    (h : deltas.foldlM (applyProducerDelta voting) s = .ok s') : s'.voters = s.voters := by
  refine List.foldlM_except_inv (P := fun x _ => x.voters = s.voters) ?_ rfl h
  intro x pd _ x' hx hstep
  unfold applyProducerDelta at hstep
  split at hstep
  · simp only [Except.bind_eq_ok, Except.pure_eq_ok] at hstep
    obtain ⟨-, -, rfl⟩ := hstep
    exact hx
  · simp only [Except.bind_eq_ok, Except.pure_eq_ok] at hstep
    obtain ⟨-, -, rfl⟩ := hstep
    exact hx

theorem validateVotes_ne {voterName proxy : Name} {producers : List Name}
    (h : validateVotes voterName proxy producers = .ok ()) (hproxy : proxy.value ≠ 0) :
    proxy ≠ voterName := by
  unfold validateVotes at h
  rw [if_pos (by simpa using hproxy)] at h
  simp only [Except.bind_eq_ok, eosioAssert_eq_ok, bne_iff_ne] at h
  obtain ⟨-, -, hne⟩ := h
  exact fun heq => hne heq.symm

@[simp] theorem activateStake_voters (staked : Int) :
    (activateStake time staked s).voters = s.voters := rfl

/-- `update_votes` keeps the invariant. A vote in person (`voting`) may only name a registered
proxy; a refresh names the proxy the voter already has. -/
theorem updateVotes_votersInv {voterName proxy : Name} {producers : List Name} {voting : Bool}
    (hinv : VotersInv s.voters)
    (hrefresh : voting = false → ∃ r, s.voters.lookup voterName = some r ∧ r.proxy = proxy)
    (h : updateVotes time voterName proxy producers voting s = .ok s') : VotersInv s'.voters := by
  simp only [updateVotes, Except.bind_eq_ok, getRow_eq_ok, eosioAssert_eq_ok,
    Except.pure_eq_ok] at h
  obtain ⟨u, hvalid, voter, hvoter, -, hassert, ⟨s1, d1⟩, h1, ⟨s2, d2⟩, h2, s3, h3, rfl⟩ := h
  -- activating the stake writes only the global state
  generalize hs0 : (if voter.lastVoteWeight ≤ 0 then activateStake time voter.staked s else s) = s0
    at h1
  have hs0v : s0.voters = s.voters := by
    rw [← hs0]
    split_ifs <;> rfl
  -- the weights move, the links stay, up to the voter's own row
  have hL1 : SameLinks s.voters s1.voters := hs0v ▸ takeBackVotes_sameLinks (hs0v ▸ hinv) h1
  obtain ⟨hL2, hcast⟩ := castVotes_sameLinks (hinv.of_sameLinks hL1) h2
  have hL : SameLinks s.voters s3.voters := applyProducerDeltas_voters h3 ▸ hL1.trans hL2
  obtain ⟨cur, hcur, hlink⟩ := hL.lookup hvoter
  obtain ⟨-, hcurProxy, hcurFlag⟩ := VoterInfo.link_eq_iff.1 hlink
  have hinv3 := hinv.of_sameLinks hL
  have hown : cur.owner = voterName := hinv3.owner hcur
  rw [hcur, Option.getD_some]
  refine hinv3.insert hcur hown (fun hflag => ?_) (fun hne => ?_)
  · -- a proxy votes in person
    have hflag' : voter.isProxy = true := hcurFlag ▸ hflag
    simpa [hflag'] using hassert
  · cases voting with
    | false =>
      -- a refresh keeps the voter's edge
      obtain ⟨r, hr, rfl⟩ := hrefresh rfl
      rw [hvoter, Option.some.injEq] at hr
      subst hr
      exact .inl hcurProxy.symm
    | true =>
      -- a new edge leads to a registered proxy, which has a row in the end too
      obtain ⟨q, hq, hqflag⟩ := hcast hne
      obtain ⟨q', hq', hqlink⟩ := hL2.lookup hq
      have hq3 : s3.voters.lookup proxy = some q' := applyProducerDeltas_voters h3 ▸ hq'
      exact .inr ⟨validateVotes_ne hvalid hne, q', hq3,
        (VoterInfo.link_eq_iff.1 hqlink).2.2 ▸ hqflag rfl⟩

theorem regproxy_votersInv {auths : List Name} {proxy : Name} {isproxy : Bool}
    (hinv : VotersInv s.voters) (h : regproxy time auths s proxy isproxy = .ok s') :
    VotersInv s'.voters := by
  simp only [regproxy, Except.bind_eq_ok] at h
  obtain ⟨-, -, h⟩ := h
  split at h
  · -- the flag changes: a proxy may not have a proxy
    rename_i pitr hpitr
    simp only [Except.bind_eq_ok, eosioAssert_eq_ok] at h
    obtain ⟨-, -, -, hfree, h⟩ := h
    have hown : pitr.owner = proxy := hinv.owner hpitr
    have hins : VotersInv (s.voters.insert proxy { pitr with isProxy := isproxy }) :=
      hinv.insert hpitr hown (fun hp => by simp only at hp; simpa [hp] using hfree)
        (fun _ => .inl rfl)
    refine hins.of_sameLinks (propagate_sameLinks hins ?_ h)
    dsimp only
    rw [hinv.owner hpitr]
    exact AList.lookup_insert _
  · -- a new row, with no proxy
    rename_i hnone
    rw [Except.pure_eq_ok] at h
    subst h
    exact hinv.insert_fresh (AList.lookup_eq_none.1 hnone) rfl rfl

/-- The end of the voting block of `changebw`, once the voter's row `fv` is written: the vote
is refreshed with the proxy the voter has. -/
theorem changebwVotes_refresh {«from» : Name} {r : VoterInfo}
    (hins : VotersInv (s.voters.insert «from» r))
    (h : (if (r.producers.length != 0 || r.proxy.value != 0) = true then
        updateVotes time «from» r.proxy r.producers false
          { s with voters := s.voters.insert «from» r }
      else pure { s with voters := s.voters.insert «from» r }) = .ok s') :
    VotersInv s'.voters := by
  split at h
  · exact updateVotes_votersInv hins (fun _ => ⟨r, AList.lookup_insert _, rfl⟩) h
  · rw [Except.pure_eq_ok] at h
    exact h ▸ hins

theorem changebwVotes_votersInv {«from» : Name} {net cpu : Asset} (hinv : VotersInv s.voters)
    (h : changebwVotes time s «from» net cpu = .ok s') : VotersInv s'.voters := by
  simp only [changebwVotes, Except.bind_eq_ok, eosioAssert_eq_ok] at h
  obtain ⟨total, -, -, -, h⟩ := h
  -- the voter's row is created with no proxy, or gets its stake changed with its link kept
  cases hv : s.voters.lookup «from» with
  | none =>
    simp only [hv] at h
    exact changebwVotes_refresh (r := { VoterInfo.empty «from» with staked := total.amount })
      (hinv.insert_fresh (AList.lookup_eq_none.1 hv) rfl rfl) h
  | some v =>
    simp only [hv] at h
    have hown : v.owner = «from» := hinv.owner hv
    have hfree := hinv.proxyFree hv
    exact changebwVotes_refresh (r := { v with staked := int64 (v.staked + total.amount) })
      (hinv.insert hv hown hfree fun _ => .inl rfl) h

theorem regproducer_voters {auths : List Name} {producer : Name} {key : PublicKey} {url : String}
    {location : UInt16} (h : regproducer auths s producer key url location = .ok s') :
    s'.voters = s.voters := by
  simp only [regproducer, Except.bind_eq_ok] at h
  obtain ⟨-, -, -, -, -, -, h⟩ := h
  split at h <;>
  · rw [Except.pure_eq_ok] at h
    exact h ▸ rfl

theorem unregprod_voters {auths : List Name} {producer : Name}
    (h : unregprod auths s producer = .ok s') : s'.voters = s.voters := by
  simp only [unregprod, Except.bind_eq_ok, Except.pure_eq_ok] at h
  obtain ⟨-, -, -, -, rfl⟩ := h
  rfl

end Actions

/-! ### Every run -/

theorem votersInv_step {s s' : VotingState} {r : VotingRequest} (hinv : VotersInv s.voters)
    (h : votingStep s r = .ok s') : VotersInv s'.voters := by
  obtain ⟨auths, time, act⟩ := r
  cases act with
  | voteproducer voterName proxy producers =>
    simp only [votingStep, voteproducer, Except.bind_eq_ok] at h
    obtain ⟨-, -, h⟩ := h
    exact updateVotes_votersInv hinv (fun h => Bool.noConfusion h) h
  | regproxy proxy isproxy => exact regproxy_votersInv hinv h
  | changebw «from» net cpu => exact changebwVotes_votersInv hinv h
  | regproducer producer key url location => exact regproducer_voters h ▸ hinv
  | unregprod producer => exact unregprod_voters h ▸ hinv

theorem votersInv_run (reqs : List VotingRequest) :
    VotersInv (Transition.run votingStep VotingState.init reqs).voters :=
  Transition.Preserves.run (I := fun s => VotersInv s.voters)
    (fun _ _ _ hs h => votersInv_step hs h) votersInv_empty reqs

/-- In a table with the invariant, the chain of proxies from a voter ends within the number of
voters: the proxies are voters, and no chain comes back. -/
theorem VotersInv.endsWithin {t : AList (fun _ : Name => VoterInfo)} {k : Name}
    (hinv : VotersInv t) (hk : k ∈ t) : EndsWithin (proxyOf t) k t.entries.length := by
  have hcard : t.keys.toFinset.card = t.entries.length := by
    rw [List.toFinset_card_of_nodup t.keys_nodup]
    simp [AList.keys, List.keys]
  rw [← hcard]
  refine endsWithin_of_acyclic hinv.acyclic _ (fun a b hab => ?_) ?_
  · exact List.mem_toFinset.2 (AList.mem_keys.2 (hinv.proxyRow hab))
  · exact List.mem_toFinset.2 (AList.mem_keys.2 hk)

/-- On every run of the voting actions from the deployment of the system contract, a
registered proxy has no proxy, every proxy a voter names has a row, and the graph of the voters'
proxies has no cycle. -/
theorem proxy_graph_acyclic (reqs : List VotingRequest) :
    let s := Transition.run votingStep VotingState.init reqs
    (∀ k r, s.voters.lookup k = some r → r.isProxy = true → r.proxy.value = 0) ∧
      (∀ k p, proxyOf s.voters k = some p → p ∈ s.voters) ∧ Acyclic (proxyOf s.voters) := by
  intro s
  have hinv : VotersInv s.voters := votersInv_run reqs
  exact ⟨fun _ _ hk hflag => hinv.proxyFree hk hflag, fun _ _ hp => hinv.proxyRow hp,
    hinv.acyclic⟩

/-- On every run of the voting actions, the chain of proxies from any voter ends within the
number of voters, and `propagate_weight_change` on the voter's row, with one call for each
voter, completes or fails on a missing producer: never on its assertion that a proxy has no
proxy, on a missing proxy, or for want of calls. -/
theorem propagate_ends_within_voters (reqs : List VotingRequest) (time : UInt64) {k : Name}
    {r : VoterInfo} (hk : (Transition.run votingStep VotingState.init reqs).voters.lookup k = some r) :
    let s := Transition.run votingStep VotingState.init reqs
    EndsWithin (proxyOf s.voters) k s.voters.entries.length ∧
      ((∃ s', propagateWeightChange time s.voters.entries.length s r = .ok s') ∨
        propagateWeightChange time s.voters.entries.length s r = .error "producer not found") := by
  intro s
  have hinv : VotersInv s.voters := votersInv_run reqs
  have hmem : k ∈ s.voters := AList.lookup_isSome.1 (by rw [hk]; rfl)
  have hends := hinv.endsWithin hmem
  refine ⟨hends, ?_⟩
  have herrors : ErrorsIn _ (propagateWeightChange time _ s r) := propagate_errors hinv rfl hk hends
  cases hres : propagateWeightChange time s.voters.entries.length s r with
  | ok s' => exact .inl ⟨s', rfl⟩
  | error e => exact .inr (congrArg Except.error (herrors e hres))

/-! ### A first vote through a proxy

The weights are `Float`s, which no proof evaluates: whichever way their comparisons go, a first
vote through a registered proxy completes. -/

section FirstVote

variable {time : UInt64} {fuel : ℕ} {s : VotingState}

/-- A call on a row with no proxy and no producers completes: the weight stops there. -/
theorem propagate_ok_of_unlinked {voter : VoterInfo} (hfuel : fuel ≠ 0)
    (hproxy : voter.proxy.value = 0) (hprods : voter.producers = []) :
    ∃ s', propagateWeightChange time fuel s voter = .ok s' := by
  obtain ⟨fuel, rfl⟩ := Nat.exists_eq_succ_of_ne_zero hfuel
  simp only [propagateWeightChange, hproxy, hprods]
  split <;> simp [eosioAssert, addToProducers]

/-- A voter with no proxy and no producers has no vote to take back. -/
theorem takeBackVotes_of_unlinked {voter : VoterInfo} (hproxy : voter.proxy.value = 0)
    (hprods : voter.producers = []) : takeBackVotes time fuel voter s = .ok (s, []) := by
  unfold takeBackVotes
  simp only [hproxy, hprods]
  split <;> rfl

/-- Casting a weight through a registered proxy with no proxy and no producers completes. -/
theorem castVotes_proxy_ok {voting : Bool} {proxy : Name} {w : Float} {p : VoterInfo}
    {deltas : ProducerDeltas} (hfuel : fuel ≠ 0) (hne : proxy.value ≠ 0)
    (hp : s.voters.lookup proxy = some p) (hpproxy : p.isProxy = true)
    (hpend : p.proxy.value = 0) (hpprods : p.producers = []) :
    ∃ s', castVotes time fuel voting proxy [] w s deltas = .ok (s', deltas) := by
  simp only [castVotes, bne_iff_ne, ne_eq, hne, not_false_eq_true, if_true, Token.getRow, hp, hpproxy,
    Bool.or_true, eosioAssert, pure_bind]
  split
  · -- the proxy's row gains the weight and passes it on, to no one
    obtain ⟨s', h⟩ : ∃ s', propagateWeightChange time fuel
        { s with voters :=
            s.voters.insert proxy { p with proxiedVoteWeight := p.proxiedVoteWeight + w } }
        { p with proxiedVoteWeight := p.proxiedVoteWeight + w } = .ok s' :=
      propagate_ok_of_unlinked hfuel hpend hpprods
    simp only [hpproxy] at h
    exact ⟨s', by simp [h]⟩
  · exact ⟨s, rfl⟩

/-- A first vote, for no producer, through a registered proxy that votes for no one itself,
completes and records the proxy. -/
theorem updateVotes_proxy_ok {voterName proxy : Name} {voting : Bool} {v p : VoterInfo}
    (hne : proxy.value ≠ 0) (hval : validateVotes voterName proxy [] = .ok ())
    (hv : s.voters.lookup voterName = some v) (hvfree : v.isProxy = false)
    (hvproxy : v.proxy.value = 0) (hvprods : v.producers = [])
    (hp : s.voters.lookup proxy = some p) (hpproxy : p.isProxy = true)
    (hpend : p.proxy.value = 0) (hpprods : p.producers = []) :
    ∃ s' r, updateVotes time voterName proxy [] voting s = .ok s' ∧
      s'.voters.lookup voterName = some r ∧ r.proxy = proxy := by
  have hfuel : s.voters.entries.length ≠ 0 := by
    intro h
    rw [List.length_eq_zero_iff] at h
    simp [AList.lookup, h] at hv
  -- `activateStake` leaves the voters as they are
  obtain ⟨s₂, hcast⟩ : ∃ s₂, castVotes time s.voters.entries.length voting proxy []
      (stake2vote time v.staked) (if v.lastVoteWeight ≤ 0 then activateStake time v.staked s else s)
      [] = .ok (s₂, []) :=
    castVotes_proxy_ok hfuel hne (by split <;> exact hp) hpproxy hpend hpprods
  simp [updateVotes, hval, Token.getRow, hv, hvfree, eosioAssert,
    takeBackVotes_of_unlinked hvproxy hvprods]
  exact ⟨s₂, [], hcast, s₂, rfl⟩

end FirstVote

/-- One account stakes and another registers as a proxy. -/
def proxyRegisteredRun : List VotingRequest :=
  [⟨[⟨1⟩], 0, .changebw ⟨1⟩ ⟨10, coreSymbol⟩ ⟨0, coreSymbol⟩⟩, ⟨[⟨2⟩], 0, .regproxy ⟨2⟩ true⟩]

/-- Then the first votes through the proxy. -/
def proxyRun : List VotingRequest :=
  proxyRegisteredRun ++ [⟨[⟨1⟩], 0, .voteproducer ⟨1⟩ ⟨2⟩ []⟩]

theorem proxyRun_votes_through_proxy :
    ∃ r, (Transition.run votingStep VotingState.init proxyRun).voters.lookup ⟨1⟩ = some r ∧
      r.proxy = ⟨2⟩ := by
  have h1 : (Transition.run votingStep VotingState.init proxyRegisteredRun).voters.lookup ⟨1⟩ =
      some { VoterInfo.empty ⟨1⟩ with staked := 10 } := rfl
  have h2 : (Transition.run votingStep VotingState.init proxyRegisteredRun).voters.lookup ⟨2⟩ =
      some { VoterInfo.empty ⟨2⟩ with isProxy := true } := rfl
  obtain ⟨s', r, hup, hr, hproxy⟩ : ∃ s' r, updateVotes 0 ⟨1⟩ ⟨2⟩ [] true
      (Transition.run votingStep VotingState.init proxyRegisteredRun) = .ok s' ∧
      s'.voters.lookup ⟨1⟩ = some r ∧ r.proxy = ⟨2⟩ :=
    updateVotes_proxy_ok (by decide) (by decide) h1 rfl rfl rfl h2 rfl rfl rfl
  have hstep : votingStep (Transition.run votingStep VotingState.init proxyRegisteredRun)
      ⟨[⟨1⟩], 0, .voteproducer ⟨1⟩ ⟨2⟩ []⟩ = .ok s' := by
    simpa [votingStep, voteproducer, Token.requireAuth] using hup
  refine ⟨r, ?_, hproxy⟩
  rw [proxyRun, Transition.run_append, Transition.run_cons, Transition.run_nil,
    Transition.commit_of_ok hstep]
  exact hr

theorem propagate_ends_within_voters_proxy :
    ∃ r, (Transition.run votingStep VotingState.init proxyRun).voters.lookup ⟨1⟩ = some r ∧
      r.proxy = ⟨2⟩ ∧
      let s := Transition.run votingStep VotingState.init proxyRun
      EndsWithin (proxyOf s.voters) ⟨1⟩ s.voters.entries.length ∧
        ((∃ s', propagateWeightChange 0 s.voters.entries.length s r = .ok s') ∨
          propagateWeightChange 0 s.voters.entries.length s r = .error "producer not found") := by
  obtain ⟨r, hr, hproxy⟩ := proxyRun_votes_through_proxy
  exact ⟨r, hr, hproxy, propagate_ends_within_voters proxyRun 0 hr⟩

/-! ### What no action meets

On a table with the invariant, the recursion has enough fuel at every call an action makes, and
the old proxy `update_votes` looks up (marked as data corruption in the code) always has a row.
-/

/-- An error an action can meet on a state of the invariant: not the model's fuel running out,
nor a missing old proxy. -/
def ExpectedError (e : String) : Prop := e ≠ outOfFuel ∧ e ≠ "old proxy not found"

instance : DecidablePred ExpectedError := fun _ => inferInstanceAs (Decidable (_ ∧ _))

section Errors

variable {time : UInt64} {s : VotingState} {voter : VoterInfo} {fuel : ℕ}

theorem addAssign_expected (a b : Asset) : ErrorsIn ExpectedError (a.addAssign b) := by
  unfold Asset.addAssign
  refine (errorsIn_eosioAssert (by decide)).bind fun _ _ => ?_
  refine (errorsIn_eosioAssert (by decide)).bind fun _ _ => ?_
  exact (errorsIn_eosioAssert (by decide)).bind fun _ _ => errorsIn_pure _

/-- A call on a row of a table with the invariant, with one call for each voter. -/
theorem propagate_expected {k : Name} (hinv : VotersInv s.voters)
    (hrow : s.voters.lookup k = some voter) (hfuel : fuel = s.voters.entries.length) :
    ErrorsIn ExpectedError (propagateWeightChange time fuel s voter) := by
  have hends := hinv.endsWithin (AList.lookup_isSome.1 (by rw [hrow]; rfl))
  refine (propagate_errors hinv rfl hrow (hfuel ▸ hends)).mono fun e he => ?_
  rw [he]
  decide

/-- A proxy's row gains a weight and passes it on, with one call for each voter. -/
theorem passOn_expected {k : Name} {q : VoterInfo} {w : Float} (hinv : VotersInv s.voters)
    (hq : s.voters.lookup k = some q) (hfuel : fuel = s.voters.entries.length) :
    ErrorsIn ExpectedError (propagateWeightChange time fuel
      { s with voters := s.voters.insert k { q with proxiedVoteWeight := w } }
      { q with proxiedVoteWeight := w }) := by
  have hlinks : SameLinks s.voters (s.voters.insert k { q with proxiedVoteWeight := w }) :=
    sameLinks_insert hq rfl
  refine propagate_expected (hinv.of_sameLinks hlinks) (k := k) ?_ (hfuel.trans hlinks.length_eq.symm)
  exact AList.lookup_insert _

/-- The old votes are taken back: the old proxy is an edge of the graph, so it has a row. -/
theorem takeBackVotes_expected {k : Name} (hinv : VotersInv s.voters)
    (hk : s.voters.lookup k = some voter) (hfuel : fuel = s.voters.entries.length) :
    ErrorsIn ExpectedError (takeBackVotes time fuel voter s) := by
  unfold takeBackVotes
  split_ifs with _ hproxy
  · have hedge : proxyOf s.voters k = some voter.proxy :=
      proxyOf_eq_some.2 ⟨voter, hk, by simpa using hproxy, rfl⟩
    obtain ⟨q, hq⟩ := Option.isSome_iff_exists.1 (AList.lookup_isSome.2 (hinv.proxyRow hedge))
    refine (errorsIn_of_eq_ok (getRow_eq_ok.2 hq)).bind fun q' hq' => ?_
    rw [getRow_eq_ok, hq, Option.some.injEq] at hq'
    subst hq'
    exact (passOn_expected hinv hq hfuel).bind fun _ _ => errorsIn_pure _
  · exact errorsIn_pure _
  · exact errorsIn_pure _

theorem castVotes_expected {voting : Bool} {proxy : Name} {producers : List Name} {w : Float}
    {deltas : ProducerDeltas} (hinv : VotersInv s.voters) (hfuel : fuel = s.voters.entries.length) :
    ErrorsIn ExpectedError (castVotes time fuel voting proxy producers w s deltas) := by
  unfold castVotes
  split_ifs
  · refine (errorsIn_getRow (by decide)).bind fun q hq => ?_
    rw [getRow_eq_ok] at hq
    refine (errorsIn_eosioAssert (by decide)).bind fun _ _ => ?_
    exact (passOn_expected hinv hq hfuel).bind fun _ _ => errorsIn_pure _
  · refine (errorsIn_getRow (by decide)).bind fun _ _ => ?_
    exact (errorsIn_eosioAssert (by decide)).bind fun _ _ => errorsIn_pure _
  · exact errorsIn_pure _
  · exact errorsIn_pure _

theorem applyProducerDeltas_expected {voting : Bool} {deltas : ProducerDeltas} :
    ErrorsIn ExpectedError (deltas.foldlM (applyProducerDelta voting) s) := by
  refine List.foldlM_errorsIn fun x pd => ?_
  unfold applyProducerDelta
  split
  · exact (errorsIn_eosioAssert (by decide)).bind fun _ _ => errorsIn_pure _
  · exact (errorsIn_eosioAssert (by decide)).bind fun _ _ => errorsIn_pure _

theorem validateVotes_expected (voterName proxy : Name) (producers : List Name) :
    ErrorsIn ExpectedError (validateVotes voterName proxy producers) := by
  unfold validateVotes
  split
  · exact (errorsIn_eosioAssert (by decide)).bind fun _ _ => errorsIn_eosioAssert (by decide)
  · exact (errorsIn_eosioAssert (by decide)).bind fun _ _ => errorsIn_eosioAssert (by decide)

theorem updateVotes_expected {voterName proxy : Name} {producers : List Name} {voting : Bool}
    (hinv : VotersInv s.voters) :
    ErrorsIn ExpectedError (updateVotes time voterName proxy producers voting s) := by
  unfold updateVotes
  refine (validateVotes_expected _ _ _).bind fun _ _ => ?_
  refine (errorsIn_getRow (by decide)).bind fun voter hvoter => ?_
  rw [getRow_eq_ok] at hvoter
  refine (errorsIn_eosioAssert (by decide)).bind fun _ _ => ?_
  -- activating the stake writes only the global state
  generalize hs0 : (if voter.lastVoteWeight ≤ 0 then activateStake time voter.staked s else s) = s0
  have hs0v : s0.voters = s.voters := by
    rw [← hs0]
    split_ifs <;> rfl
  refine (takeBackVotes_expected (hs0v ▸ hinv) (hs0v ▸ hvoter) (hs0v ▸ rfl)).bind
    fun ⟨s1, d1⟩ h1 => ?_
  have hL1 : SameLinks s.voters s1.voters := hs0v ▸ takeBackVotes_sameLinks (hs0v ▸ hinv) h1
  refine (castVotes_expected (hinv.of_sameLinks hL1) hL1.length_eq.symm).bind fun _ _ => ?_
  exact applyProducerDeltas_expected.bind fun _ _ => errorsIn_pure _

theorem regproxy_expected {auths : List Name} {proxy : Name} {isproxy : Bool}
    (hinv : VotersInv s.voters) : ErrorsIn ExpectedError (regproxy time auths s proxy isproxy) := by
  unfold regproxy
  refine (errorsIn_eosioAssert (by decide)).bind fun _ _ => ?_
  split
  · rename_i pitr hpitr
    refine (errorsIn_eosioAssert (by decide)).bind fun _ _ => ?_
    refine (errorsIn_eosioAssert (by decide)).bind fun _ hfree => ?_
    rw [eosioAssert_eq_ok] at hfree
    have hown : pitr.owner = proxy := hinv.owner hpitr
    have hins : VotersInv (s.voters.insert proxy { pitr with isProxy := isproxy }) :=
      hinv.insert hpitr hown (fun hp => by simp only at hp; simpa [hp] using hfree)
        (fun _ => .inl rfl)
    refine propagate_expected hins (k := proxy) (AList.lookup_insert _) ?_
    exact (AList.length_insert_of_mem _ (AList.lookup_isSome.1 (by rw [hpitr]; rfl))).symm
  · exact errorsIn_pure _

/-- The end of the voting block of `changebw`, once the voter's row `r` is written. -/
theorem changebwVotes_refresh_expected {«from» : Name} {r : VoterInfo}
    (hins : VotersInv (s.voters.insert «from» r)) :
    ErrorsIn ExpectedError (if (r.producers.length != 0 || r.proxy.value != 0) = true then
        updateVotes time «from» r.proxy r.producers false
          { s with voters := s.voters.insert «from» r }
      else pure { s with voters := s.voters.insert «from» r }) := by
  split
  · exact updateVotes_expected hins
  · exact errorsIn_pure _

theorem changebwVotes_expected {«from» : Name} {net cpu : Asset} (hinv : VotersInv s.voters) :
    ErrorsIn ExpectedError (changebwVotes time s «from» net cpu) := by
  unfold changebwVotes
  refine (addAssign_expected _ _).bind fun total _ => ?_
  refine (errorsIn_eosioAssert (by decide)).bind fun _ _ => ?_
  -- the voter's row is created with no proxy, or gets its stake changed with its link kept
  cases hv : s.voters.lookup «from» with
  | none =>
    exact changebwVotes_refresh_expected (r := { VoterInfo.empty «from» with staked := total.amount })
      (hinv.insert_fresh (AList.lookup_eq_none.1 hv) rfl rfl)
  | some v =>
    have hown : v.owner = «from» := hinv.owner hv
    have hfree := hinv.proxyFree hv
    exact changebwVotes_refresh_expected (r := { v with staked := int64 (v.staked + total.amount) })
      (hinv.insert hv hown hfree fun _ => .inl rfl)

theorem votingStep_expected {r : VotingRequest} (hinv : VotersInv s.voters) :
    ErrorsIn ExpectedError (votingStep s r) := by
  obtain ⟨auths, time, act⟩ := r
  cases act with
  | voteproducer voterName proxy producers =>
    exact (errorsIn_eosioAssert (by decide)).bind fun _ _ => updateVotes_expected hinv
  | regproxy proxy isproxy => exact regproxy_expected hinv
  | changebw «from» net cpu => exact changebwVotes_expected hinv
  | regproducer producer key url location =>
    unfold votingStep regproducer
    refine (errorsIn_eosioAssert (by decide)).bind fun _ _ => ?_
    refine (errorsIn_eosioAssert (by decide)).bind fun _ _ => ?_
    refine (errorsIn_eosioAssert (by decide)).bind fun _ _ => ?_
    split <;> exact errorsIn_pure _
  | unregprod producer =>
    unfold votingStep unregprod
    refine (errorsIn_eosioAssert (by decide)).bind fun _ _ => ?_
    exact (errorsIn_getRow (by decide)).bind fun _ _ => errorsIn_pure _

end Errors

/-- On every run of the voting actions, no action runs out of the calls the model gives the
recursion of `propagate_weight_change` (one for each voter), and the check of `update_votes`
for a missing old proxy never fires. -/
theorem voting_fuel_suffices (reqs : List VotingRequest) (r : VotingRequest) :
    let s := Transition.run votingStep VotingState.init reqs
    votingStep s r ≠ .error outOfFuel ∧ votingStep s r ≠ .error "old proxy not found" := by
  intro s
  have herrors := votingStep_expected (r := r) (votersInv_run reqs)
  exact ⟨fun h => (herrors _ h).1 rfl, fun h => (herrors _ h).2 rfl⟩

end Voting
end System
end Safeos
