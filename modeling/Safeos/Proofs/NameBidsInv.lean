import Safeos.NameBids
import Mathlib

/-!
# Name auctions: a closed auction blocks the others

`closed_bid_blocks_close`: on every state the actions reach, while a closed auction waits to be
claimed `onblock` closes no other. `by_high_bid` is `-high_bid` cast to `uint64_t`, so a closed
row, with a negative bid, has a key below `2^63` and an open row one above it: the closed row is
first in the `highbid` index (`byHighBid_lt_of_neg_of_pos`), and `onblock` looks at that row
only. A closed row stays as it is until its highest bidder creates the account
(`closed_row_kept`), so the open auctions wait as long as the claim does
(`closed_bid_blocks_until_claimed`). With no closed row, the first row is an open one with the
highest bid (`highBidBegin_of_open`), and that is the auction `onblock` closes
(`onblock_closes_highest`).

That every row's key lands on its side of `2^63` rests on the bids staying within the asset
range (`BidsInv`): every bid has passed a token transfer, and a close only negates a bid.
`auctionStep_namebids` says once what an action can do to `namebids`; the invariant and the
lemma on closed rows are read off it.
-/

namespace Safeos
namespace System

/-! ### The `highbid` index -/

theorem precedes_iff (b c : NameBid) :
    b.precedes c = true ↔ b.byHighBid.toNat < c.byHighBid.toNat ∨
      (b.byHighBid.toNat = c.byHighBid.toNat ∧ b.newname.value.toNat ≤ c.newname.value.toNat) := by
  simp [NameBid.precedes, UInt64.lt_iff_toNat_lt, UInt64.le_iff_toNat_le, ← UInt64.toNat_inj]

theorem precedes_refl (b : NameBid) : b.precedes b = true := by
  rw [precedes_iff]
  omega

theorem precedes_total {b c : NameBid} (h : b.precedes c = false) : c.precedes b = true := by
  rw [← Bool.not_eq_true, precedes_iff] at h
  rw [precedes_iff]
  omega

theorem precedes_trans {a b c : NameBid} (hab : a.precedes b = true) (hbc : b.precedes c = true) :
    a.precedes c = true := by
  rw [precedes_iff] at hab hbc ⊢
  omega

theorem highBidBegin_ne_none : ∀ {l : List NameBid}, l ≠ [] → highBidBegin l ≠ none
  | [], h => absurd rfl h
  | b :: bs, _ => by
    rw [highBidBegin]
    split
    · simp
    · split <;> simp

/-- `begin()` is a row of the index, and it comes before every row. -/
theorem highBidBegin_spec :
    ∀ {l : List NameBid} {b : NameBid}, highBidBegin l = some b → b ∈ l ∧ ∀ c ∈ l, b.precedes c = true
  | [], _, h => by cases h
  | x :: xs, b, h => by
    rw [highBidBegin] at h
    cases hxs : highBidBegin xs with
    | none =>
      simp only [hxs, Option.some.injEq] at h
      subst h
      -- the rest of the index is empty
      have hnil : xs = [] := by
        by_contra hne
        exact highBidBegin_ne_none hne hxs
      subst hnil
      exact ⟨List.mem_singleton_self _, fun c hc => by
        rw [List.mem_singleton.1 hc]
        exact precedes_refl _⟩
    | some c =>
      obtain ⟨hc, hcmin⟩ := highBidBegin_spec hxs
      simp only [hxs] at h
      by_cases hxc : x.precedes c = true
      · rw [if_pos hxc] at h
        cases h
        refine ⟨List.mem_cons_self, fun d hd => ?_⟩
        rcases List.mem_cons.1 hd with rfl | hd
        · exact precedes_refl _
        · exact precedes_trans hxc (hcmin d hd)
      · rw [if_neg hxc] at h
        cases h
        refine ⟨List.mem_cons_of_mem _ hc, fun d hd => ?_⟩
        rcases List.mem_cons.1 hd with rfl | hd
        · exact precedes_total (by simpa using hxc)
        · exact hcmin d hd

/-! ### Keys of open and closed auctions -/

/-- A closed auction's key is its bid, negated. -/
theorem byHighBid_toNat_of_neg {b : NameBid} (h1 : -2 ^ 63 ≤ b.highBid) (h : b.highBid < 0) :
    b.byHighBid.toNat = (-b.highBid).toNat := by
  rw [NameBid.byHighBid, UInt64.ofInt, UInt64.toNat_ofNat', Nat.mod_eq_of_lt (by omega)]
  omega

/-- An open auction's key is `2^64` less its bid. -/
theorem byHighBid_toNat_of_pos {b : NameBid} (h : 0 < b.highBid) (h2 : b.highBid < 2 ^ 63) :
    b.byHighBid.toNat = 2 ^ 64 - b.highBid.toNat := by
  rw [NameBid.byHighBid, UInt64.ofInt, UInt64.toNat_ofNat', Nat.mod_eq_of_lt (by omega)]
  omega

/-- Every closed auction comes before every open one in the `highbid` index. -/
theorem byHighBid_lt_of_neg_of_pos {b c : NameBid} (hb1 : -2 ^ 63 ≤ b.highBid) (hb : b.highBid < 0)
    (hc : 0 < c.highBid) (hc2 : c.highBid < 2 ^ 63) : b.byHighBid.toNat < c.byHighBid.toNat := by
  rw [byHighBid_toNat_of_neg hb1 hb, byHighBid_toNat_of_pos hc hc2]
  omega

/-! ### Bids stay within the asset range -/

/-- The rows of `namebids` are stored under their own names, with bids in the asset range. -/
def BidsInv (t : AList (fun _ : Name => NameBid)) : Prop :=
  ∀ e ∈ t.entries, e.2.newname = e.1 ∧ -Asset.maxAmount ≤ e.2.highBid ∧ e.2.highBid ≤ Asset.maxAmount

instance (t : AList (fun _ : Name => NameBid)) : Decidable (BidsInv t) :=
  inferInstanceAs (Decidable (∀ e ∈ t.entries, _))

section BidsInv

variable {t : AList (fun _ : Name => NameBid)} {k : Name} {b : NameBid}

theorem mem_bidRows (h : t.lookup k = some b) : b ∈ bidRows t :=
  List.mem_map.2 ⟨⟨k, b⟩, AList.mem_lookup_iff.1 h, rfl⟩

theorem BidsInv.lookup (h : BidsInv t) (hk : t.lookup k = some b) :
    b.newname = k ∧ -Asset.maxAmount ≤ b.highBid ∧ b.highBid ≤ Asset.maxAmount :=
  h ⟨k, b⟩ (AList.mem_lookup_iff.1 hk)

theorem BidsInv.of_mem (h : BidsInv t) (hb : b ∈ bidRows t) :
    t.lookup b.newname = some b ∧ -Asset.maxAmount ≤ b.highBid ∧ b.highBid ≤ Asset.maxAmount := by
  obtain ⟨e, he, rfl⟩ := List.mem_map.1 hb
  obtain ⟨hkey, hrange⟩ := h e he
  refine ⟨AList.mem_lookup_iff.2 ?_, hrange⟩
  rw [hkey]
  exact he

theorem BidsInv.insert (h : BidsInv t) (hkey : b.newname = k)
    (hrange : -Asset.maxAmount ≤ b.highBid ∧ b.highBid ≤ Asset.maxAmount) : BidsInv (t.insert k b) := by
  intro e he
  rw [AList.entries_insert] at he
  rcases List.mem_cons.1 he with rfl | he
  · exact ⟨hkey, hrange⟩
  · exact h e ((List.kerase_sublist _ _).subset he)

theorem BidsInv.erase (h : BidsInv t) (k : Name) : BidsInv (t.erase k) := fun e he =>
  h e ((List.kerase_sublist _ _).subset (AList.entries_erase k t ▸ he))

theorem bidsInv_empty : BidsInv ∅ := fun _ he => absurd he List.not_mem_nil

end BidsInv

/-! ### What each action does to `namebids` -/

theorem transfer_quantity_isValid {env : Token.Env} {auths : List Name} {s s' : Token.State}
    {f t : Name} {q : Asset} {memo : String} (h : Token.transfer env auths s f t q memo = .ok s') :
    q.isValid = true := by
  simp only [Token.transfer, Token.requireAuth, Except.bind_eq_ok, eosioAssert_eq_ok] at h
  obtain ⟨-, -, -, -, -, -, -, -, -, hv, -⟩ := h
  exact hv

section Actions

variable {env : Token.Env} {auths : List Name} {now : UInt64} {s s' : AuctionState}

/-- `bidname` writes one row, under the name bid on, with a bid from a completed token transfer;
the row it replaces was open. -/
theorem bidname_namebids {bidder newname : Name} {bid : Asset} (hinv : BidsInv s.namebids)
    (h : bidname env auths now s bidder newname bid = .ok s') :
    (∀ c, s.namebids.lookup newname = some c → 0 < c.highBid) ∧
      ∃ row : NameBid, s'.namebids = s.namebids.insert newname row ∧ row.newname = newname ∧
        0 < row.highBid ∧ row.highBid ≤ Asset.maxAmount := by
  simp only [bidname, Token.requireAuth, Except.bind_eq_ok, eosioAssert_eq_ok] at h
  obtain ⟨-, -, -, -, -, -, -, -, -, -, -, -, -, -, -, hpos, h⟩ := h
  have hpos : 0 < bid.amount := by simpa using hpos
  cases hl : s.namebids.lookup newname with
  | none =>
    simp only [hl, Except.bind_eq_ok, Except.pure_eq_ok] at h
    obtain ⟨token, htr, rfl⟩ := h
    have hv := Asset.range_of_isValid (transfer_quantity_isValid htr)
    refine ⟨fun c hc => ?_, _, rfl, rfl, hpos, hv.2⟩
    cases hc
  | some current =>
    simp only [hl, Except.bind_eq_ok, eosioAssert_eq_ok, Except.pure_eq_ok] at h
    obtain ⟨-, hcur, -, -, -, -, refund, -, token, htr, token', -, rfl⟩ := h
    have hv := Asset.range_of_isValid (transfer_quantity_isValid htr)
    refine ⟨fun c hc => ?_, _, rfl, (hinv.lookup hl).1, hpos, hv.2⟩
    cases hc
    simpa using hcur


/-- The name-auction block of `onblock` either changes nothing or closes the first row of the
index, an open one. -/
theorem closeNameAuction_cases (now : UInt64) (slot : UInt32) (thresh : UInt64) (s : AuctionState) :
    closeNameAuction now slot thresh s = s ∨
      ∃ hb, highBidBegin (bidRows s.namebids) = some hb ∧ 0 < hb.highBid ∧
        closeNameAuction now slot thresh s = { s with
          lastNameClose := slot
          namebids := s.namebids.insert hb.newname { hb with highBid := int64 (-hb.highBid) } } := by
  by_cases hday : slot - s.lastNameClose > blocksPerDay
  · cases hbegin : highBidBegin (bidRows s.namebids) with
    | none =>
      left
      simp only [closeNameAuction, if_pos hday, hbegin]
    | some hb =>
      -- the first row is closed only if it is open and every time condition holds
      by_cases hc : hb.highBid > 0 ∧ hb.lastBidTime < now - usecondsPerDay ∧ thresh > 0 ∧
          now - thresh > 14 * usecondsPerDay
      · right
        refine ⟨hb, rfl, hc.1, ?_⟩
        simp only [closeNameAuction, if_pos hday, hbegin, if_pos hc]
      · left
        simp only [closeNameAuction, if_pos hday, hbegin, if_neg hc]
  · left
    simp only [closeNameAuction, if_neg hday]

/-- `native::newaccount` either leaves `namebids` as it is or erases the closed row of the name
created, for its highest bidder. -/
theorem newaccount_namebids {self creator newact : Name}
    (h : newaccount self s creator newact = .ok s') :
    s' = s ∨ ∃ c, s.namebids.lookup newact = some c ∧ c.highBidder = creator ∧ c.highBid < 0 ∧
      s' = { s with namebids := s.namebids.erase newact } := by
  simp only [newaccount] at h
  split_ifs at h with hself hdot hsuffix
  · -- the name is its own top-level suffix: a claim
    cases hl : s.namebids.lookup newact with
    | none => simp [Token.getRow, hl, throw, throwThe, MonadExceptOf.throw] at h
    | some c =>
      simp only [Token.getRow, hl, Except.bind_eq_ok, eosioAssert_eq_ok, Except.pure_eq_ok] at h
      obtain ⟨c', hc', -, hbidder, -, hneg, rfl⟩ := h
      subst hc'
      exact .inr ⟨_, rfl, by simpa using hbidder, by simpa using hneg, rfl⟩
  · simp only [Except.bind_eq_ok, eosioAssert_eq_ok, Except.pure_eq_ok] at h
    obtain ⟨-, -, rfl⟩ := h
    exact .inl rfl
  · exact .inl (Except.pure_eq_ok.1 h).symm
  · exact .inl (Except.pure_eq_ok.1 h).symm

end Actions

section Step

variable {env : Token.Env} {s s' : AuctionState} {r : AuctionRequest}

/-- What one completed action can do to `namebids`: nothing, a bid on an open or new row, the
close of the first row of the index, or the claim of a closed row by its highest bidder. -/
theorem auctionStep_namebids (hinv : BidsInv s.namebids) (h : auctionStep env s r = .ok s') :
    s'.namebids = s.namebids ∨
    (∃ newname, (∀ c, s.namebids.lookup newname = some c → 0 < c.highBid) ∧
      ∃ row : NameBid, s'.namebids = s.namebids.insert newname row ∧ row.newname = newname ∧
        0 < row.highBid ∧ row.highBid ≤ Asset.maxAmount) ∨
    (∃ hb ∈ bidRows s.namebids, 0 < hb.highBid ∧
      s'.namebids = s.namebids.insert hb.newname { hb with highBid := int64 (-hb.highBid) }) ∨
    (∃ creator newact c, r.act = .newaccount creator newact ∧ s.namebids.lookup newact = some c ∧
      c.highBidder = creator ∧ c.highBid < 0 ∧ s'.namebids = s.namebids.erase newact) := by
  obtain ⟨auths, now, act⟩ := r
  cases act with
  | bidname bidder newname bid =>
    exact .inr (.inl ⟨newname, bidname_namebids hinv h⟩)
  | onblock slot thresh =>
    simp only [auctionStep, Token.requireAuth, Except.bind_eq_ok, eosioAssert_eq_ok,
      Except.pure_eq_ok] at h
    obtain ⟨-, -, rfl⟩ := h
    rcases closeNameAuction_cases now slot thresh s with heq | ⟨hb, hbegin, hpos, heq⟩
    · exact .inl (by rw [heq])
    · exact .inr (.inr (.inl ⟨hb, (highBidBegin_spec hbegin).1, hpos, by rw [heq]⟩))
  | newaccount creator newact =>
    rcases newaccount_namebids h with rfl | ⟨c, hc, hbidder, hneg, rfl⟩
    · exact .inl rfl
    · exact .inr (.inr (.inr ⟨creator, newact, c, rfl, hc, hbidder, hneg, rfl⟩))
  | token act =>
    simp only [auctionStep, Except.bind_eq_ok, Except.pure_eq_ok] at h
    obtain ⟨token, -, rfl⟩ := h
    exact .inl rfl

theorem BidsInv.step (hinv : BidsInv s.namebids) (h : auctionStep env s r = .ok s') :
    BidsInv s'.namebids := by
  rcases auctionStep_namebids hinv h with heq | ⟨newname, -, row, heq, hkey, hpos, hmax⟩ |
    ⟨hb, hmem, hpos, heq⟩ | ⟨creator, newact, c, -, -, -, -, heq⟩ <;> rw [heq]
  · exact hinv
  · exact hinv.insert hkey ⟨by unfold Asset.maxAmount at hmax ⊢; omega, hmax⟩
  · -- the closed bid is the open one negated, still within the range
    obtain ⟨-, hlo, hhi⟩ := hinv.of_mem hmem
    have hneg : int64 (-hb.highBid) = -hb.highBid := by
      unfold Asset.maxAmount at hhi
      exact int64_of_lt (by omega) (by omega)
    refine hinv.insert rfl ⟨?_, ?_⟩ <;> dsimp only <;> rw [hneg] <;> omega
  · exact hinv.erase newact

/-- Every state the actions reach from deployment keeps its bids in range. -/
theorem bidsInv_run (env : Token.Env) (reqs : List AuctionRequest) :
    BidsInv (Transition.run (auctionStep env) AuctionState.init reqs).namebids :=
  Transition.Preserves.run (I := fun s => BidsInv s.namebids) (fun _ _ _ hs h => hs.step h)
    bidsInv_empty reqs

end Step
/-! ### The first row of the index -/

section Close

variable {s : AuctionState}

/-- While a closed auction waits to be claimed, the first row of the `highbid` index is not an
open one. -/
theorem highBidBegin_not_open (hinv : BidsInv s.namebids) {k : Name} {b : NameBid}
    (hk : s.namebids.lookup k = some b) (hb : b.highBid < 0) {first : NameBid}
    (hbegin : highBidBegin (bidRows s.namebids) = some first) : first.highBid ≤ 0 := by
  obtain ⟨hmem, hmin⟩ := highBidBegin_spec hbegin
  have hkey := (precedes_iff _ _).1 (hmin b (mem_bidRows hk))
  obtain ⟨-, hblo, -⟩ := hinv.lookup hk
  obtain ⟨-, -, hhi⟩ := hinv.of_mem hmem
  unfold Asset.maxAmount at hblo hhi
  -- an open first row would have a key above the closed row's
  by_contra hpos
  have hlt := byHighBid_lt_of_neg_of_pos (by omega) hb (by omega : 0 < first.highBid) (by omega)
  omega

/-- `onblock` closes no auction while a closed one waits to be claimed. -/
theorem closeNameAuction_of_closed (hinv : BidsInv s.namebids) {k : Name} {b : NameBid}
    (hk : s.namebids.lookup k = some b) (hb : b.highBid < 0) (now : UInt64) (slot : UInt32)
    (thresh : UInt64) : closeNameAuction now slot thresh s = s := by
  rcases closeNameAuction_cases now slot thresh s with heq | ⟨first, hbegin, hpos, -⟩
  · exact heq
  · exact absurd (highBidBegin_not_open hinv hk hb hbegin) (by omega)

/-- With no closed auction, the first row of the index is an open row with the highest bid. -/
theorem highBidBegin_of_open (hinv : BidsInv s.namebids)
    (hopen : ∀ b ∈ bidRows s.namebids, 0 < b.highBid) {first : NameBid}
    (hbegin : highBidBegin (bidRows s.namebids) = some first) :
    first ∈ bidRows s.namebids ∧ 0 < first.highBid ∧
      ∀ c ∈ bidRows s.namebids, c.highBid ≤ first.highBid := by
  obtain ⟨hmem, hmin⟩ := highBidBegin_spec hbegin
  refine ⟨hmem, hopen first hmem, fun c hc => ?_⟩
  have hkey := (precedes_iff _ _).1 (hmin c hc)
  obtain ⟨-, -, hfirst⟩ := hinv.of_mem hmem
  obtain ⟨-, -, hc'⟩ := hinv.of_mem hc
  unfold Asset.maxAmount at hfirst hc'
  have hfirst_pos := hopen first hmem
  have hc_pos := hopen c hc
  -- among open rows the key falls as the bid rises
  rw [byHighBid_toNat_of_pos hfirst_pos (by omega), byHighBid_toNat_of_pos hc_pos (by omega)] at hkey
  omega

end Close

/-- A closed auction stays as it is until its highest bidder creates the account. -/
theorem closed_row_kept {env : Token.Env} {s s' : AuctionState} {r : AuctionRequest}
    (hinv : BidsInv s.namebids) (h : auctionStep env s r = .ok s') {k : Name} {b : NameBid}
    (hk : s.namebids.lookup k = some b) (hb : b.highBid < 0) :
    s'.namebids.lookup k = some b ∨
      (r.act = .newaccount b.highBidder k ∧ s'.namebids.lookup k = none) := by
  rcases auctionStep_namebids hinv h with heq | ⟨newname, hopen, row, heq, -⟩ |
    ⟨first, hmem, hpos, heq⟩ | ⟨creator, newact, c, hact, hc, hbidder, -, heq⟩ <;> rw [heq]
  · exact .inl hk
  · -- a bid is on an open row or a new one, never on this one
    have hne : k ≠ newname := fun hkn => by
      subst hkn
      exact absurd (hopen b hk) (by omega)
    exact .inl (by rw [AList.lookup_insert_ne hne, hk])
  · have hne : k ≠ first.newname := fun hkn => by
      have hfirst := (hinv.of_mem hmem).1
      rw [← hkn, hk, Option.some.injEq] at hfirst
      subst hfirst
      omega
    exact .inl (by rw [AList.lookup_insert_ne hne, hk])
  · by_cases hkn : k = newact
    · subst hkn
      rw [hk, Option.some.injEq] at hc
      subst hc
      exact .inr ⟨by rw [hact, hbidder], AList.lookup_erase _ _⟩
    · exact .inl (by rw [AList.lookup_erase_ne hkn, hk])

/-- On every state the actions reach, `onblock` closes no auction while a closed one waits to
be claimed: the open auctions stay open, whatever their bids and times. -/
theorem closed_bid_blocks_close (env : Token.Env) (reqs : List AuctionRequest) {k : Name}
    {b : NameBid} (hk : (Transition.run (auctionStep env) AuctionState.init reqs).namebids.lookup k = some b)
    (hb : b.highBid < 0) (now : UInt64) (slot : UInt32) (thresh : UInt64) :
    closeNameAuction now slot thresh (Transition.run (auctionStep env) AuctionState.init reqs) =
      Transition.run (auctionStep env) AuctionState.init reqs :=
  closeNameAuction_of_closed (bidsInv_run env reqs) hk hb now slot thresh

/-- Accounts for a run: the system account, two bidders and `eosio.names`. -/
def closedBidEnv : Token.Env :=
  ⟨Config.systemAccountName, fun n => n ∈ [Config.systemAccountName, stringToName "alice".toList,
    stringToName "bob".toList, eosioNames]⟩

/-- `alice` bids 100 on `ab` and `bob` 50 on `cd`; fifteen days later `onblock` closes `ab`. -/
def closedBidRun : List AuctionRequest :=
  let alice := stringToName "alice".toList
  let bob := stringToName "bob".toList
  [⟨[Config.systemAccountName], 0,
      .token (.create Config.systemAccountName ⟨10000000, coreSymbol⟩)⟩,
    ⟨[Config.systemAccountName], 0, .token (.issue alice ⟨1000, coreSymbol⟩ "")⟩,
    ⟨[Config.systemAccountName], 0, .token (.issue bob ⟨1000, coreSymbol⟩ "")⟩,
    ⟨[alice], 0, .bidname alice (stringToName "ab".toList) ⟨100, coreSymbol⟩⟩,
    ⟨[bob], 0, .bidname bob (stringToName "cd".toList) ⟨50, coreSymbol⟩⟩,
    ⟨[Config.systemAccountName], 15 * usecondsPerDay, .onblock 200000 1⟩]

/-- After that run `ab` is closed and unclaimed and `cd` open with a bid fifteen days old, and
`onblock` on day twenty leaves `cd` open. -/
theorem closed_bid_blocks_close_cd :
    (Transition.run (auctionStep closedBidEnv) AuctionState.init closedBidRun).namebids.lookup
        (stringToName "ab".toList) =
      some ⟨stringToName "ab".toList, stringToName "alice".toList, -100, 0⟩ ∧
    (Transition.run (auctionStep closedBidEnv) AuctionState.init closedBidRun).namebids.lookup
        (stringToName "cd".toList) =
      some ⟨stringToName "cd".toList, stringToName "bob".toList, 50, 0⟩ ∧
    closeNameAuction (20 * usecondsPerDay) 400000 1
        (Transition.run (auctionStep closedBidEnv) AuctionState.init closedBidRun) =
      Transition.run (auctionStep closedBidEnv) AuctionState.init closedBidRun := by
  have hab : (Transition.run (auctionStep closedBidEnv) AuctionState.init closedBidRun).namebids.lookup
      (stringToName "ab".toList) =
      some ⟨stringToName "ab".toList, stringToName "alice".toList, -100, 0⟩ := by
    decide +kernel
  refine ⟨hab, by decide +kernel, ?_⟩
  exact closed_bid_blocks_close closedBidEnv closedBidRun hab (by decide) _ _ _

/-! ### Over the rest of a run -/

/-- A closed auction's row stays as it is over every further run in which its highest bidder
does not create the account. -/
theorem closed_row_run (env : Token.Env) {k : Name} {b : NameBid} (hb : b.highBid < 0) :
    ∀ (more reqs : List AuctionRequest), (∀ r ∈ more, r.act ≠ .newaccount b.highBidder k) →
      (Transition.run (auctionStep env) AuctionState.init reqs).namebids.lookup k = some b →
      (Transition.run (auctionStep env) AuctionState.init (reqs ++ more)).namebids.lookup k =
        some b
  | [], reqs, _, hk => by rwa [List.append_nil]
  | r :: more, reqs, hmore, hk => by
    rw [List.append_cons]
    refine closed_row_run env hb more (reqs ++ [r]) (fun r' hr' => hmore r' (.tail _ hr')) ?_
    rw [Transition.run_append, Transition.run_cons, Transition.run_nil]
    -- one step: it either completed, and kept the row, or changed nothing
    rcases Transition.commit_cases (auctionStep env) _ r with h | h
    · rcases closed_row_kept (bidsInv_run env reqs) h hk hb with h' | ⟨hact, -⟩
      · exact h'
      · exact absurd hact (hmore r (.head _))
    · rw [h]
      exact hk

/-- From any state the actions reach, while a closed auction is unclaimed, its row stays as it
is over every further run in which its highest bidder does not create the account, and in every
state of such a run `onblock` closes no auction. -/
theorem closed_bid_blocks_until_claimed (env : Token.Env) (reqs more : List AuctionRequest)
    {k : Name} {b : NameBid}
    (hk : (Transition.run (auctionStep env) AuctionState.init reqs).namebids.lookup k = some b)
    (hb : b.highBid < 0) (hmore : ∀ r ∈ more, r.act ≠ .newaccount b.highBidder k) :
    (Transition.run (auctionStep env) AuctionState.init (reqs ++ more)).namebids.lookup k =
        some b ∧
      ∀ now slot thresh, closeNameAuction now slot thresh
          (Transition.run (auctionStep env) AuctionState.init (reqs ++ more)) =
        Transition.run (auctionStep env) AuctionState.init (reqs ++ more) := by
  have hk' := closed_row_run env hb more reqs hmore hk
  exact ⟨hk', closeNameAuction_of_closed (bidsInv_run env _) hk' hb⟩

/-- Five days on, `bob` raises his bid on `cd` and `onblock` runs again. -/
def laterRun : List AuctionRequest :=
  [⟨[stringToName "bob".toList], 20 * usecondsPerDay,
      .bidname (stringToName "bob".toList) (stringToName "cd".toList) ⟨60, coreSymbol⟩⟩,
    ⟨[Config.systemAccountName], 20 * usecondsPerDay, .onblock 400000 1⟩]

theorem closed_bid_blocks_until_claimed_laterRun :
    (Transition.run (auctionStep closedBidEnv) AuctionState.init closedBidRun).namebids.lookup
        (stringToName "ab".toList) =
      some ⟨stringToName "ab".toList, stringToName "alice".toList, -100, 0⟩ ∧
    (∀ r ∈ laterRun, r.act ≠ .newaccount (stringToName "alice".toList) (stringToName "ab".toList)) ∧
    (Transition.run (auctionStep closedBidEnv) AuctionState.init
        (closedBidRun ++ laterRun)).namebids.lookup (stringToName "ab".toList) =
      some ⟨stringToName "ab".toList, stringToName "alice".toList, -100, 0⟩ ∧
    ∀ now slot thresh, closeNameAuction now slot thresh
        (Transition.run (auctionStep closedBidEnv) AuctionState.init (closedBidRun ++ laterRun)) =
      Transition.run (auctionStep closedBidEnv) AuctionState.init (closedBidRun ++ laterRun) := by
  have hab : (Transition.run (auctionStep closedBidEnv) AuctionState.init closedBidRun).namebids.lookup
      (stringToName "ab".toList) =
      some ⟨stringToName "ab".toList, stringToName "alice".toList, -100, 0⟩ := by
    decide +kernel
  have hmore : ∀ r ∈ laterRun,
      r.act ≠ .newaccount (stringToName "alice".toList) (stringToName "ab".toList) := by
    simp [laterRun]
  exact ⟨hab, hmore, closed_bid_blocks_until_claimed closedBidEnv closedBidRun laterRun hab
    (by decide) hmore⟩

/-- On every state the actions reach with no closed auction, `onblock` closes nothing or closes
the open auction with the highest bid: it negates that bid and records the slot. -/
theorem onblock_closes_highest (env : Token.Env) (reqs : List AuctionRequest)
    (hopen : ∀ b ∈ bidRows (Transition.run (auctionStep env) AuctionState.init reqs).namebids,
      0 < b.highBid) (now : UInt64) (slot : UInt32) (thresh : UInt64) :
    let s := Transition.run (auctionStep env) AuctionState.init reqs
    closeNameAuction now slot thresh s = s ∨
      ∃ first ∈ bidRows s.namebids, (∀ c ∈ bidRows s.namebids, c.highBid ≤ first.highBid) ∧
        closeNameAuction now slot thresh s = { s with
          lastNameClose := slot
          namebids := s.namebids.insert first.newname
            { first with highBid := int64 (-first.highBid) } } := by
  intro s
  rcases closeNameAuction_cases now slot thresh s with heq | ⟨first, hbegin, -, heq⟩
  · exact .inl heq
  · -- the row `onblock` looked at heads the index: with every row open, it has the highest bid
    obtain ⟨hmem, -, hmax⟩ := highBidBegin_of_open (bidsInv_run env reqs) hopen hbegin
    exact .inr ⟨first, hmem, hmax, heq⟩

theorem onblock_closes_highest_ab :
    (∀ b ∈ bidRows (Transition.run (auctionStep closedBidEnv) AuctionState.init
        (closedBidRun.take 5)).namebids, 0 < b.highBid) ∧
      let s := Transition.run (auctionStep closedBidEnv) AuctionState.init (closedBidRun.take 5)
      (closeNameAuction (15 * usecondsPerDay) 200000 1 s = s ∨
        ∃ first ∈ bidRows s.namebids, (∀ c ∈ bidRows s.namebids, c.highBid ≤ first.highBid) ∧
          closeNameAuction (15 * usecondsPerDay) 200000 1 s = { s with
            lastNameClose := 200000
            namebids := s.namebids.insert first.newname
              { first with highBid := int64 (-first.highBid) } }) := by
  have hopen : ∀ b ∈ bidRows (Transition.run (auctionStep closedBidEnv) AuctionState.init
      (closedBidRun.take 5)).namebids, 0 < b.highBid := by
    decide +kernel
  exact ⟨hopen, onblock_closes_highest closedBidEnv (closedBidRun.take 5) hopen _ _ _⟩

end System
end Safeos
