import Safeos.Jit
import Mathlib

/-!
# Boosted accounts: slots are counted modulo `2^64`

`jit_slots_conserved`: on every run from the first construction, `jit_remains` and the number of
rows of `boost` add up to 102 in `uint64_t`, and the rows are for distinct accounts. Every
action moves one slot from one side to the other (`SlotsInv.insert_fresh`,
`SlotsInv.erase_mem`) or leaves both as they are. The count holds only modulo `2^64`: `boost`
takes a slot without checking that one is free, and once the hundred free slots are taken it
wraps `jit_remains` around to `2^64 - 1` (`boost_wraps_jit_remains`). The decrement in `onblock`
is guarded by `jit_remains <= 0`.
-/

namespace Safeos
namespace System

/-! ### Slots -/

/-- The free slots and the rows of `boost` add up to 102 in `uint64_t`, and every row is stored
under its own account. -/
def SlotsInv (t : AList (fun _ : Name => BoostAccount)) (remains : UInt64) : Prop :=
  remains + UInt64.ofNat t.entries.length = 102 ∧ ∀ e ∈ t.entries, e.2.account = e.1

instance (t : AList (fun _ : Name => BoostAccount)) (remains : UInt64) :
    Decidable (SlotsInv t remains) :=
  inferInstanceAs (Decidable (_ ∧ ∀ e ∈ t.entries, _))

section SlotsInv

variable {t : AList (fun _ : Name => BoostAccount)} {r : UInt64} {a : Name} {b : BoostAccount}

theorem SlotsInv.account (h : SlotsInv t r) (ha : t.lookup a = some b) : b.account = a :=
  h.2 ⟨a, b⟩ (AList.mem_lookup_iff.1 ha)

/-- A row under a fresh account takes a free slot. -/
theorem SlotsInv.insert_fresh (h : SlotsInv t r) (hfresh : a ∉ t) (hacc : b.account = a) :
    SlotsInv (t.insert a b) (r - 1) := by
  refine ⟨?_, fun e he => ?_⟩
  · rw [AList.length_insert_of_notMem b hfresh, UInt64.ofNat_add, ← h.1]
    grind
  · rw [AList.entries_insert] at he
    rcases List.mem_cons.1 he with rfl | he
    · exact hacc
    · exact h.2 e ((List.kerase_sublist _ _).subset he)

/-- A row replaced under its own account keeps the count. -/
theorem SlotsInv.insert_mem (h : SlotsInv t r) (hmem : a ∈ t) (hacc : b.account = a) :
    SlotsInv (t.insert a b) r := by
  refine ⟨by rw [AList.length_insert_of_mem b hmem]; exact h.1, fun e he => ?_⟩
  rw [AList.entries_insert] at he
  rcases List.mem_cons.1 he with rfl | he
  · exact hacc
  · exact h.2 e ((List.kerase_sublist _ _).subset he)

/-- An erased row frees its slot. -/
theorem SlotsInv.erase_mem (h : SlotsInv t r) (hmem : a ∈ t) : SlotsInv (t.erase a) (r + 1) := by
  have hpos : 0 < t.entries.length := by
    have := List.length_pos_of_mem (AList.mem_keys.1 hmem)
    simpa [AList.keys, List.keys] using this
  refine ⟨?_, fun e he => h.2 e ((List.kerase_sublist _ _).subset (AList.entries_erase a t ▸ he))⟩
  have hlen : t.entries.length = t.entries.length - 1 + 1 := by omega
  rw [AList.length_erase_of_mem hmem, ← h.1, hlen, UInt64.ofNat_add, Nat.add_sub_cancel]
  grind

end SlotsInv

/-- The expired rows are erased one by one, each freeing its slot. -/
theorem eraseExpired_slotsInv :
    ∀ (as : List Name) (t : AList (fun _ : Name => BoostAccount)) (bid : JitBid),
      SlotsInv t bid.jitRemains →
        SlotsInv (eraseExpired t bid as).1 (eraseExpired t bid as).2.jitRemains
  | [], _, _, h => h
  | a :: as, t, bid, h => by
    rw [eraseExpired]
    split
    · next hmem =>
      exact eraseExpired_slotsInv as _ _ (h.erase_mem (AList.lookup_isSome.1 hmem))
    · exact eraseExpired_slotsInv as t bid h

/-- `onblock` erases the expired rows and gives the highest bidder a row, taking a slot if the
bidder has none. -/
theorem jitOnblock_slotsInv (now : UInt64) {s : JitState} (h : SlotsInv s.boost s.jitbid.jitRemains) :
    SlotsInv (jitOnblock now s).boost (jitOnblock now s).jitbid.jitRemains := by
  unfold jitOnblock
  dsimp only
  have he := eraseExpired_slotsInv
    (((boostRows s.boost).filter fun b => b.expiration < now).map (·.account)) s.boost s.jitbid h
  generalize eraseExpired s.boost s.jitbid
    (((boostRows s.boost).filter fun b => b.expiration < now).map (·.account)) = p at he ⊢
  obtain ⟨t, bid⟩ := p
  dsimp only at he ⊢
  split_ifs with hint hz
  · exact h
  · exact he
  · -- the award: seven more days for a boosted bidder, else a new row
    cases hl : t.lookup bid.highBidder with
    | some b =>
      dsimp only
      exact he.insert_mem (AList.lookup_isSome.1 (Option.isSome_iff_exists.2 ⟨b, hl⟩))
        (by dsimp only; exact he.account hl)
    | none =>
      dsimp only
      exact he.insert_fresh (AList.lookup_eq_none.1 hl) rfl

section Actions

variable {env : Token.Env} {auths : List Name} {s s' : JitState} {account : Name}

theorem boost_eq_ok (h : boost env auths s account = .ok s') :
    account ∉ s.boost ∧ s' = { s with
      boost := s.boost.insert account ⟨account, UInt64.ofInt (-1)⟩
      jitbid := { s.jitbid with jitRemains := s.jitbid.jitRemains - 1 } } := by
  simp only [boost, Token.requireAuth, Except.bind_eq_ok, eosioAssert_eq_ok, Except.pure_eq_ok] at h
  obtain ⟨-, -, -, -, -, hnone, rfl⟩ := h
  exact ⟨AList.lookup_eq_none.1 (Option.isNone_iff_eq_none.1 hnone), rfl⟩

theorem cancelboost_eq_ok (h : cancelboost env auths s account = .ok s') :
    account ∈ s.boost ∧ s' = { s with
      boost := s.boost.erase account
      jitbid := { s.jitbid with jitRemains := s.jitbid.jitRemains + 1 } } := by
  simp only [cancelboost, Token.requireAuth, Except.bind_eq_ok, eosioAssert_eq_ok,
    Except.pure_eq_ok] at h
  obtain ⟨-, -, -, -, -, hsome, rfl⟩ := h
  exact ⟨AList.lookup_isSome.1 hsome, rfl⟩

/-- `bidjit` writes the bid and the token tables only. -/
theorem bidjit_boost {now : UInt64} {bidder : Name} {bid : Asset}
    (h : bidjit env auths now s bidder bid = .ok s') :
    s'.boost = s.boost ∧ s'.jitbid.jitRemains = s.jitbid.jitRemains := by
  simp only [bidjit, Token.requireAuth, Except.bind_eq_ok, eosioAssert_eq_ok] at h
  obtain ⟨-, -, -, -, -, -, -, -, -, -, -, -, h⟩ := h
  -- with or without a refund, the state written is the token tables and the new bid
  split_ifs at h
  · simp only [Except.bind_eq_ok, Except.map_eq_ok] at h
    obtain ⟨-, ⟨q, -, rfl⟩, token, -, h⟩ := h
    simp only [Except.bind_eq_ok, Except.pure_eq_ok] at h
    obtain ⟨token', -, rfl⟩ := h
    exact ⟨rfl, rfl⟩
  · simp only [Except.bind_eq_ok, Except.pure_eq_ok] at h
    obtain ⟨-, rfl, token, -, h⟩ := h
    simp only [Except.bind_eq_ok, Except.pure_eq_ok] at h
    obtain ⟨token', rfl, rfl⟩ := h
    exact ⟨rfl, rfl⟩

end Actions

/-! ### Runs -/

section Step

variable {env : Token.Env} {s s' : JitState} {r : JitRequest}

theorem slotsInv_step (hinv : SlotsInv s.boost s.jitbid.jitRemains) (h : jitStep env s r = .ok s') :
    SlotsInv s'.boost s'.jitbid.jitRemains := by
  obtain ⟨auths, now, act⟩ := r
  cases act with
  | bidjit bidder bid =>
    obtain ⟨hboost, hremains⟩ := bidjit_boost h
    rw [hboost, hremains]
    exact hinv
  | boost account =>
    obtain ⟨hfresh, rfl⟩ := boost_eq_ok h
    exact hinv.insert_fresh hfresh rfl
  | cancelboost account =>
    obtain ⟨hmem, rfl⟩ := cancelboost_eq_ok h
    exact hinv.erase_mem hmem
  | onblock =>
    simp only [jitStep, Token.requireAuth, Except.bind_eq_ok, eosioAssert_eq_ok,
      Except.pure_eq_ok] at h
    obtain ⟨-, -, rfl⟩ := h
    exact jitOnblock_slotsInv now hinv
  | token act =>
    simp only [jitStep, Except.bind_eq_ok, Except.pure_eq_ok] at h
    obtain ⟨token, -, rfl⟩ := h
    exact hinv

theorem slotsInv_init (now : UInt64) :
    SlotsInv (JitState.init now).boost (JitState.init now).jitbid.jitRemains := by
  -- the time of construction is only the bid's start time
  show SlotsInv (JitState.init 0).boost (JitState.init 0).jitbid.jitRemains
  decide

theorem slotsInv_run (env : Token.Env) (start : UInt64) (reqs : List JitRequest) :
    SlotsInv (Transition.run (jitStep env) (JitState.init start) reqs).boost
      (Transition.run (jitStep env) (JitState.init start) reqs).jitbid.jitRemains :=
  Transition.Preserves.run (I := fun s => SlotsInv s.boost s.jitbid.jitRemains)
    (fun _ _ _ hs h => slotsInv_step hs h) (slotsInv_init start) reqs

end Step

/-- Rows stored under their own accounts are for distinct accounts. -/
theorem SlotsInv.nodup_accounts {t : AList (fun _ : Name => BoostAccount)} {r : UInt64}
    (h : SlotsInv t r) : ((boostRows t).map (·.account)).Nodup := by
  have hkeys : (boostRows t).map (·.account) = t.keys := by
    rw [boostRows, List.map_map, AList.keys, List.keys]
    exact List.map_congr_left fun e he => h.2 e he
  rw [hkeys]
  exact t.keys_nodup

/-- On every run from the first construction, the free slots and the rows of `boost` add up to
102 in `uint64_t`, and the rows are for distinct accounts. -/
theorem jit_slots_conserved (env : Token.Env) (start : UInt64) (reqs : List JitRequest) :
    (Transition.run (jitStep env) (JitState.init start) reqs).jitbid.jitRemains +
        UInt64.ofNat (Transition.run (jitStep env) (JitState.init start) reqs).boost.entries.length =
      102 ∧
    ((boostRows (Transition.run (jitStep env) (JitState.init start) reqs).boost).map
      (·.account)).Nodup :=
  ⟨(slotsInv_run env start reqs).1, (slotsInv_run env start reqs).nodup_accounts⟩

/-- `boost` takes a slot without checking that one is free: once the free slots are used up, it
wraps `jit_remains` around to `2^64 - 1`, while the sum in `uint64_t` stays 102. -/
theorem boost_wraps_jit_remains (env : Token.Env) (start : UInt64) (reqs : List JitRequest)
    (auths : List Name) (now : UInt64) (account : Name)
    (h0 : (Transition.run (jitStep env) (JitState.init start) reqs).jitbid.jitRemains = 0)
    (hauth : Config.systemAccountName ∈ auths) (hacc : env.isAccount account = true)
    (hfresh : account ∉ (Transition.run (jitStep env) (JitState.init start) reqs).boost) :
    ∃ s', jitStep env (Transition.run (jitStep env) (JitState.init start) reqs)
        ⟨auths, now, .boost account⟩ = .ok s' ∧
      s'.jitbid.jitRemains.toNat = 2 ^ 64 - 1 ∧ SlotsInv s'.boost s'.jitbid.jitRemains := by
  have hinv := slotsInv_run env start reqs
  have hok : jitStep env (Transition.run (jitStep env) (JitState.init start) reqs)
      ⟨auths, now, .boost account⟩ = .ok { Transition.run (jitStep env) (JitState.init start) reqs with
        boost := (Transition.run (jitStep env) (JitState.init start) reqs).boost.insert account
          ⟨account, UInt64.ofInt (-1)⟩
        jitbid := { (Transition.run (jitStep env) (JitState.init start) reqs).jitbid with
          jitRemains := (Transition.run (jitStep env) (JitState.init start) reqs).jitbid.jitRemains - 1 } } := by
    simp [jitStep, boost, Token.requireAuth, hauth, hacc, AList.lookup_eq_none.2 hfresh, eosioAssert]
  refine ⟨_, hok, ?_, hinv.insert_fresh hfresh rfl⟩
  dsimp only
  rw [h0]
  rfl

/-- Accounts for a run of `eosio`'s boosts. -/
def wrapEnv : Token.Env := ⟨Config.systemAccountName, fun _ => true⟩

/-- `eosio` boosts a hundred accounts, taking every free slot. -/
def hundredBoosts : List JitRequest :=
  (List.range 100).map fun i => ⟨[Config.systemAccountName], 0, .boost ⟨UInt64.ofNat (1000 + i)⟩⟩

/-- After a hundred boosts no slot is free, and the next boost wraps `jit_remains`. -/
theorem boost_wraps_jit_remains_hundred :
    (Transition.run (jitStep wrapEnv) (JitState.init 0) hundredBoosts).jitbid.jitRemains = 0 ∧
    ∃ s', jitStep wrapEnv (Transition.run (jitStep wrapEnv) (JitState.init 0) hundredBoosts)
        ⟨[Config.systemAccountName], 0, .boost ⟨2000⟩⟩ = .ok s' ∧
      s'.jitbid.jitRemains.toNat = 2 ^ 64 - 1 ∧ SlotsInv s'.boost s'.jitbid.jitRemains := by
  have h : (Transition.run (jitStep wrapEnv) (JitState.init 0) hundredBoosts).jitbid.jitRemains = 0 ∧
      (⟨2000⟩ : Name) ∉ (Transition.run (jitStep wrapEnv) (JitState.init 0) hundredBoosts).boost := by
    decide +kernel
  exact ⟨h.1, boost_wraps_jit_remains wrapEnv 0 hundredBoosts _ 0 ⟨2000⟩ h.1 (by decide) rfl h.2⟩

end System
end Safeos
