import Safeos.Staking
import Safeos.Proofs.TokenInv

/-!
# Staking conservation

`System.Inv`: the token tables satisfy `Token.Inv`; the weights `userres` records for each
receiver are the sums of what every account delegated to it in `delband`; the voting stake of
each account is the sum of what it delegated to all receivers; every stored weight and refund
is a non-negative core-token amount within range; and every voting stake is a non-negative
`int64_t`.

Each block of `changebw` rewrites or erases one row of its table, by a known amount: an
`AList.Shift`. Both weight tables shift by the deltas, the voter's row by their sum, and the
refund request by the part of the deltas it absorbed. The sums follow from the shifts
(`Shift.sum`), and so does the balance of `eosio.stake`: it receives exactly what the refund
request did not absorb.
-/

namespace Safeos
namespace System

open AList (Shift)

/-- A non-negative amount of the core token, within the asset range. -/
def CoreAmount (a : Asset) : Prop :=
  a.symbol = coreSymbol ∧ 0 ≤ a.amount ∧ a.amount ≤ Asset.maxAmount

/-- What the checks at the start of `changebw` establish about the deltas. -/
structure Deltas (dn dc : Asset) : Prop where
  netSymbol : dn.symbol = coreSymbol
  cpuSymbol : dc.symbol = coreSymbol
  net : -Asset.maxAmount ≤ dn.amount ∧ dn.amount ≤ Asset.maxAmount
  cpu : -Asset.maxAmount ≤ dc.amount ∧ dc.amount ≤ Asset.maxAmount
  sign : (0 ≤ dn.amount ∧ 0 ≤ dc.amount) ∨ (dn.amount ≤ 0 ∧ dc.amount ≤ 0)

/-! ## What the tables record -/

/-- The net weight `r` holds according to `userres` (zero without a row). -/
def heldNet (s : State) (r : Name) : Int := (s.userres.lookup r).elim 0 fun t => t.netWeight.amount

/-- The cpu weight `r` holds according to `userres`. -/
def heldCpu (s : State) (r : Name) : Int := (s.userres.lookup r).elim 0 fun t => t.cpuWeight.amount

/-- The net weight delegated to `r`, summed over all delegators. -/
def delegatedNet (s : State) (r : Name) : Int :=
  s.delband.sum fun k b => if k.2 = r then b.netWeight.amount else 0

/-- The cpu weight delegated to `r`. -/
def delegatedCpu (s : State) (r : Name) : Int :=
  s.delband.sum fun k b => if k.2 = r then b.cpuWeight.amount else 0

/-- The voting stake of `f` (zero without a row). -/
def votingStake (s : State) (f : Name) : Int := (s.voters.lookup f).elim 0 fun v => v.staked

/-- What `f` has delegated, net and cpu, to all receivers. -/
def stakedBy (s : State) (f : Name) : Int :=
  s.delband.sum fun k b => if k.1 = f then b.netWeight.amount + b.cpuWeight.amount else 0

/-- The tokens the staking tables account for: all delegated stake and all pending refunds. -/
def lockedStake (s : State) : Int :=
  (s.delband.sum fun _ b => b.netWeight.amount + b.cpuWeight.amount) +
    s.refunds.sum fun _ q => q.netAmount.amount + q.cpuAmount.amount

/-- The core-token balance of `eosio.stake`. -/
def stakeBalance (s : State) : Int := Token.balance s.token (eosioStake, coreSymbol.name)

/-- The staking invariant. -/
structure Inv (s : State) : Prop where
  token : Token.Inv s.token
  net : ∀ r, heldNet s r = delegatedNet s r
  cpu : ∀ r, heldCpu s r = delegatedCpu s r
  staked : ∀ f, votingStake s f = stakedBy s f
  delband : ∀ k b, s.delband.lookup k = some b → CoreAmount b.netWeight ∧ CoreAmount b.cpuWeight
  userres : ∀ k b, s.userres.lookup k = some b → CoreAmount b.netWeight ∧ CoreAmount b.cpuWeight
  refunds : ∀ k q, s.refunds.lookup k = some q → CoreAmount q.netAmount ∧ CoreAmount q.cpuAmount
  voters : ∀ k v, s.voters.lookup k = some v → 0 ≤ v.staked ∧ v.staked < 2 ^ 63

/-! ## The blocks of `changebw` -/

theorem deltas_of_checks {dn dc sum : Asset} {c : Bool}
    (hne : (dn.ne asset0 <||> dc.ne asset0) = .ok c) (hsum : dn.addAssign dc = .ok sum)
    (habs : max dn.amount.natAbs dc.amount.natAbs ≤ sum.amount.natAbs) :
    Deltas dn dc ∧ sum.amount = dn.amount + dc.amount := by
  -- `!=` compares the symbols even when it is the first operand of `||` that decides
  have hsym : dn.symbol = coreSymbol := by
    simp only [Except.orM_eq_ok, Asset.ne, Asset.cmp_eq_ok] at hne
    rcases hne with ⟨⟨h, -⟩, -⟩ | ⟨⟨h, -⟩, -⟩ <;> exact h
  obtain ⟨hsym', hlo, hhi, rfl⟩ := Asset.addAssign_eq_ok.1 hsum
  simp only at habs ⊢
  -- the checked sum is within range, so by the `abs` check each delta is too
  have hn : -Asset.maxAmount ≤ dn.amount ∧ dn.amount ≤ Asset.maxAmount := by
    unfold Asset.maxAmount at hlo hhi ⊢; omega
  have hc : -Asset.maxAmount ≤ dc.amount ∧ dc.amount ≤ Asset.maxAmount := by
    unfold Asset.maxAmount at hlo hhi ⊢; omega
  have hw := Asset.int64_add_of_range hn hc
  rw [hw] at habs
  exact ⟨⟨hsym, hsym'.trans hsym, hn, hc, by omega⟩, hw⟩

/-- `+=` of a checked delta to a stored weight is exact and stays in the core symbol. -/
theorem addAssign_core {a d c : Asset} (ha : CoreAmount a)
    (hd : d.symbol = coreSymbol ∧ -Asset.maxAmount ≤ d.amount ∧ d.amount ≤ Asset.maxAmount)
    (h : a.addAssign d = .ok c) :
    c.amount = a.amount + d.amount ∧ c.symbol = coreSymbol ∧ c.amount ≤ Asset.maxAmount := by
  obtain ⟨-, -, hhi, rfl⟩ := Asset.addAssign_eq_ok.1 h
  have hlo : -Asset.maxAmount ≤ a.amount := by have := ha.2.1; unfold Asset.maxAmount; omega
  have hw := Asset.int64_add_of_range ⟨hlo, ha.2.2⟩ hd.2
  exact ⟨hw, ha.1, hw ▸ hhi⟩

/-- The end of each block: the row under `k` is rewritten to `b`, or erased when both its
amounts are zero; its amounts are the old ones (zero for a new row) plus the changes. -/
theorem shift_row {κ ν : Type} [DecidableEq κ] (net cpu : ν → Asset) (b : ν)
    {t t' : AList (fun _ : κ => ν)} {k : κ} {dn dc : Int}
    (ht' : (t' = t.erase k ∧ (net b).amount = 0 ∧ (cpu b).amount = 0) ∨ t' = t.insert k b)
    (hnet : (net b).amount = (t.lookup k).elim 0 (fun b => (net b).amount) + dn)
    (hcpu : (cpu b).amount = (t.lookup k).elim 0 (fun b => (cpu b).amount) + dc)
    (hb : CoreAmount (net b) ∧ CoreAmount (cpu b)) :
    Shift (fun _ b => (net b).amount) t t' k dn ∧ Shift (fun _ b => (cpu b).amount) t t' k dc ∧
      ∀ b', t'.lookup k = some b' → CoreAmount (net b') ∧ CoreAmount (cpu b') := by
  rcases ht' with ⟨rfl, h0, h0'⟩ | rfl
  · refine ⟨AList.shift_erase (by rw [← hnet, h0]), AList.shift_erase (by rw [← hcpu, h0']), ?_⟩
    simp
  · refine ⟨AList.shift_insert hnet, AList.shift_insert hcpu, ?_⟩
    simp only [AList.lookup_insert, Option.some.injEq]
    rintro _ rfl
    exact hb

section Blocks

variable {dn dc : Asset}

theorem updateDelband_shift (hd : Deltas dn dc)
    {t t' : AList (fun _ : Name × Name => DelegatedBandwidth)} {f r : Name}
    (hrow : ∀ b, t.lookup (f, r) = some b → CoreAmount b.netWeight ∧ CoreAmount b.cpuWeight)
    (h : updateDelband t f r dn dc = .ok t') :
    Shift (fun _ b => b.netWeight.amount) t t' (f, r) dn.amount ∧
      Shift (fun _ b => b.cpuWeight.amount) t t' (f, r) dc.amount ∧
      ∀ b, t'.lookup (f, r) = some b → CoreAmount b.netWeight ∧ CoreAmount b.cpuWeight := by
  simp only [updateDelband, Except.bind_eq_ok, eosioAssert_eq_ok, Asset.le, Asset.eq,
    Asset.cmp_eq_ok, Except.andM_eq_ok] at h
  obtain ⟨dbo, hdbo, _, ⟨-, rfl⟩, -, hn, _, ⟨-, rfl⟩, -, hc, c, hc', h⟩ := h
  -- the row after `emplace` or `modify`: the old weights (zero for a new row) plus the deltas
  have hnew : (dbo.netWeight.amount = (t.lookup (f, r)).elim 0 (fun b => b.netWeight.amount) +
      dn.amount ∧ dbo.netWeight.symbol = coreSymbol ∧ dbo.netWeight.amount ≤ Asset.maxAmount) ∧
      (dbo.cpuWeight.amount = (t.lookup (f, r)).elim 0 (fun b => b.cpuWeight.amount) +
      dc.amount ∧ dbo.cpuWeight.symbol = coreSymbol ∧ dbo.cpuWeight.amount ≤ Asset.maxAmount) := by
    cases hlk : t.lookup (f, r) with
    | none =>
      simp only [hlk, Except.pure_eq_ok] at hdbo; subst hdbo
      simp only [Option.elim, zero_add, true_and]
      exact ⟨⟨hd.netSymbol, hd.net.2⟩, hd.cpuSymbol, hd.cpu.2⟩
    | some b =>
      simp only [hlk, Except.bind_eq_ok, Except.pure_eq_ok] at hdbo
      obtain ⟨n, hn', c, hc'', rfl⟩ := hdbo
      exact ⟨addAssign_core (hrow b hlk).1 ⟨hd.netSymbol, hd.net⟩ hn',
        addAssign_core (hrow b hlk).2 ⟨hd.cpuSymbol, hd.cpu⟩ hc''⟩
  refine shift_row (fun b : DelegatedBandwidth => b.netWeight) (fun b => b.cpuWeight) dbo ?_ hnew.1.1
    hnew.2.1 ⟨⟨hnew.1.2.1, of_decide_eq_true hn, hnew.1.2.2⟩,
      ⟨hnew.2.2.1, of_decide_eq_true hc, hnew.2.2.2⟩⟩
  -- erased exactly when both weights compare equal to `asset(0)`
  cases c
  · simp only [Bool.false_eq_true, if_false, Except.pure_eq_ok] at h
    exact .inr h.symm
  · simp only [if_true, Except.pure_eq_ok] at h
    rcases hc' with ⟨⟨-, h₁⟩, -, h₂⟩ | ⟨-, h₂⟩
    · exact .inl ⟨h.symm, beq_iff_eq.1 h₁.symm, beq_iff_eq.1 h₂.symm⟩
    · cases h₂

theorem updateTotals_shift (hd : Deltas dn dc) {t t' : AList (fun _ : Name => UserResources)}
    {r : Name} (hrow : ∀ b, t.lookup r = some b → CoreAmount b.netWeight ∧ CoreAmount b.cpuWeight)
    (h : updateTotals t r dn dc = .ok t') :
    Shift (fun _ b => b.netWeight.amount) t t' r dn.amount ∧
      Shift (fun _ b => b.cpuWeight.amount) t t' r dc.amount ∧
      ∀ b, t'.lookup r = some b → CoreAmount b.netWeight ∧ CoreAmount b.cpuWeight := by
  simp only [updateTotals, Except.bind_eq_ok, eosioAssert_eq_ok, Asset.le, Asset.eq,
    Asset.cmp_eq_ok, Except.andM_eq_ok, Except.pure_eq_ok] at h
  obtain ⟨tot, htot, _, ⟨-, rfl⟩, -, hn, _, ⟨-, rfl⟩, -, hc, c, hc', h⟩ := h
  have hnew : (tot.netWeight.amount = (t.lookup r).elim 0 (fun b => b.netWeight.amount) +
      dn.amount ∧ tot.netWeight.symbol = coreSymbol ∧ tot.netWeight.amount ≤ Asset.maxAmount) ∧
      (tot.cpuWeight.amount = (t.lookup r).elim 0 (fun b => b.cpuWeight.amount) +
      dc.amount ∧ tot.cpuWeight.symbol = coreSymbol ∧ tot.cpuWeight.amount ≤ Asset.maxAmount) := by
    cases hlk : t.lookup r with
    | none =>
      simp only [hlk, Except.pure_eq_ok] at htot; subst htot
      simp only [Option.elim, zero_add, true_and]
      exact ⟨⟨hd.netSymbol, hd.net.2⟩, hd.cpuSymbol, hd.cpu.2⟩
    | some b =>
      simp only [hlk, Except.bind_eq_ok, Except.pure_eq_ok] at htot
      obtain ⟨n, hn', c, hc'', rfl⟩ := htot
      exact ⟨addAssign_core (hrow b hlk).1 ⟨hd.netSymbol, hd.net⟩ hn',
        addAssign_core (hrow b hlk).2 ⟨hd.cpuSymbol, hd.cpu⟩ hc''⟩
  refine shift_row (fun b : UserResources => b.netWeight) (fun b => b.cpuWeight) tot ?_ hnew.1.1
    hnew.2.1 ⟨⟨hnew.1.2.1, of_decide_eq_true hn, hnew.1.2.2⟩,
      ⟨hnew.2.2.1, of_decide_eq_true hc, hnew.2.2.2⟩⟩
  -- erased exactly when both weights equal `asset(0)` and the row holds no RAM
  cases c
  · simp only [Bool.false_eq_true, if_false, Except.pure_eq_ok] at h
    exact .inr h.symm
  · simp only [if_true, Except.pure_eq_ok] at h
    rcases hc' with ⟨⟨-, h₁⟩, ⟨⟨-, h₂⟩, -⟩ | ⟨-, h₂⟩⟩ | ⟨-, h₂⟩
    · exact .inl ⟨h.symm, beq_iff_eq.1 h₁.symm, beq_iff_eq.1 h₂.symm⟩
    · cases h₂
    · cases h₂

theorem coreAmount_asset0 : CoreAmount asset0 := ⟨rfl, le_rfl, by decide⟩

/-- An existing request absorbs a balance: what it gives back plus its new amount is what it
held plus the balance. -/
theorem settleRefund_spec {a b a' b' : Asset} (ha : CoreAmount a)
    (hbr : -Asset.maxAmount ≤ b.amount ∧ b.amount ≤ Asset.maxAmount)
    (h : settleRefund a b = .ok (a', b')) :
    a'.amount + b.amount = a.amount + b'.amount ∧ CoreAmount a' ∧ CoreAmount b' := by
  simp only [settleRefund, Except.bind_eq_ok, Asset.lt, Asset.cmp_eq_ok] at h
  obtain ⟨d, hd, c, ⟨-, rfl⟩, h⟩ := h
  obtain ⟨-, hlo, hhi, rfl⟩ := Asset.subAssign_eq_ok.1 hd
  have hlo' : -Asset.maxAmount ≤ a.amount := by have := ha.2.1; unfold Asset.maxAmount; omega
  have hw := Asset.int64_sub_of_range ⟨hlo', ha.2.2⟩ hbr
  simp only [hw] at h hlo hhi
  obtain ⟨hsym, ha0, ha1⟩ := ha
  unfold Asset.maxAmount at hbr ha1 hhi
  split at h <;> rename_i hlt <;> simp only [decide_eq_true_eq, not_lt] at hlt <;>
    rw [asset0_amount] at hlt <;>
    simp only [Except.pure_eq_ok, Prod.mk.injEq] at h <;> obtain ⟨rfl, rfl⟩ := h
  · -- the request went below zero: it is cleared and the rest comes back as the balance
    have hn : int64 (-(a.amount - b.amount)) = -(a.amount - b.amount) :=
      int64_of_lt (by omega) (by omega)
    refine ⟨?_, coreAmount_asset0, hsym, ?_, ?_⟩
    · simp only [Asset.neg, hn, asset0_amount]; omega
    · simp only [Asset.neg, hn]; omega
    · simp only [Asset.neg, hn, Asset.maxAmount]; omega
  · refine ⟨?_, ⟨hsym, hlt, ?_⟩, coreAmount_asset0⟩
    · simp only [asset0_amount]; omega
    · simp only [Asset.maxAmount]; omega

/-- A new request takes a negative balance as its amount. -/
theorem openRefund_spec {b a' b' : Asset} (hb : b.symbol = coreSymbol)
    (hbr : -Asset.maxAmount ≤ b.amount ∧ b.amount ≤ Asset.maxAmount)
    (h : openRefund b = .ok (a', b')) :
    a'.amount + b.amount = b'.amount ∧ CoreAmount a' ∧ CoreAmount b' := by
  simp only [openRefund, Except.bind_eq_ok, Asset.lt, Asset.cmp_eq_ok] at h
  obtain ⟨c, ⟨-, rfl⟩, h⟩ := h
  unfold Asset.maxAmount at hbr
  split at h <;> rename_i hlt <;> simp only [decide_eq_true_eq, not_lt] at hlt <;>
    rw [asset0_amount] at hlt <;>
    simp only [Except.pure_eq_ok, Prod.mk.injEq] at h <;> obtain ⟨rfl, rfl⟩ := h
  · have hn : int64 (-b.amount) = -b.amount := int64_of_lt (by omega) (by omega)
    refine ⟨?_, ⟨hb, ?_, ?_⟩, coreAmount_asset0⟩
    · simp only [Asset.neg, hn, asset0_amount]; omega
    · simp only [Asset.neg, hn]; omega
    · simp only [Asset.neg, hn, Asset.maxAmount]; omega
  · refine ⟨?_, coreAmount_asset0, hb, hlt, ?_⟩
    · simp only [asset0_amount]; omega
    · simp only [Asset.maxAmount]; omega

theorem updateRefunds_shift (hd : Deltas dn dc) {now : UInt32}
    {t t' : AList (fun _ : Name => RefundRequest)} {f r : Name} {tr : Bool} {nb cb : Asset}
    (hrow : ∀ q, t.lookup f = some q → CoreAmount q.netAmount ∧ CoreAmount q.cpuAmount)
    (h : updateRefunds now t f r tr dn dc = .ok (t', nb, cb)) :
    (Shift (fun _ q => q.netAmount.amount) t t' f (nb.amount - dn.amount) ∧
      Shift (fun _ q => q.cpuAmount.amount) t t' f (cb.amount - dc.amount) ∧
      ∀ q, t'.lookup f = some q → CoreAmount q.netAmount ∧ CoreAmount q.cpuAmount) ∧
      CoreAmount nb ∧ CoreAmount cb := by
  -- where nothing is netted, the deltas are paid in as they are; they are not negative then
  have hkeep : 0 ≤ dn.amount → 0 ≤ dc.amount → t' = t → nb = dn → cb = dc →
      (Shift (fun _ q => q.netAmount.amount) t t' f (nb.amount - dn.amount) ∧
      Shift (fun _ q => q.cpuAmount.amount) t t' f (cb.amount - dc.amount) ∧
      ∀ q, t'.lookup f = some q → CoreAmount q.netAmount ∧ CoreAmount q.cpuAmount) ∧
      CoreAmount nb ∧ CoreAmount cb := by
    rintro hn hc rfl rfl rfl
    rw [sub_self, sub_self]
    exact ⟨⟨AList.shift_self, AList.shift_self, hrow⟩, ⟨hd.netSymbol, hn, hd.net.2⟩,
      ⟨hd.cpuSymbol, hc, hd.cpu.2⟩⟩
  unfold updateRefunds at h
  by_cases hcase : (!tr && f == r || decide (int64 (dn.amount + dc.amount) < 0)) = true
  · simp only [hcase, if_true] at h
    cases hlk : t.lookup f with
    | some req =>
      -- an existing request absorbs the deltas; it is erased once both its amounts are zero
      simp only [hlk, Except.bind_eq_ok, eosioAssert_eq_ok, Asset.le, Asset.eq, Asset.cmp_eq_ok,
        Except.andM_eq_ok, Prod.exists] at h
      obtain ⟨u, -, a₁, b₁, hs₁, a₂, b₂, hs₂, _, ⟨-, rfl⟩, -, -, _, ⟨-, rfl⟩, -, -, c, hc, h⟩ := h
      obtain ⟨e₁, ha₁, hb₁⟩ := settleRefund_spec (hrow req hlk).1 hd.net hs₁
      obtain ⟨e₂, ha₂, hb₂⟩ := settleRefund_spec (hrow req hlk).2 hd.cpu hs₂
      -- the request after netting is kept, or erased once both its amounts are zero
      have hq : ((t' = t.erase f ∧ a₁.amount = 0 ∧ a₂.amount = 0) ∨
          t' = t.insert f { req with
            requestTime := if u = true then now else req.requestTime, netAmount := a₁,
            cpuAmount := a₂ }) ∧ nb = b₁ ∧ cb = b₂ := by
        cases c
        · simp only [Bool.false_eq_true, if_false, Except.pure_eq_ok, Prod.mk.injEq] at h
          exact ⟨.inr h.1.symm, h.2.1.symm, h.2.2.symm⟩
        · simp only [if_true, Except.pure_eq_ok, Prod.mk.injEq] at h
          rcases hc with ⟨⟨-, h₁⟩, -, h₂⟩ | ⟨-, h₂⟩
          · exact ⟨.inl ⟨h.1.symm, beq_iff_eq.1 h₁.symm, beq_iff_eq.1 h₂.symm⟩, h.2.1.symm, h.2.2.symm⟩
          · cases h₂
      obtain ⟨hq, rfl, rfl⟩ := hq
      exact ⟨shift_row (fun q : RefundRequest => q.netAmount) (fun q => q.cpuAmount)
        { req with requestTime := if u = true then now else req.requestTime,
                   netAmount := a₁, cpuAmount := a₂ } hq
        (by simp only [hlk, Option.elim]; omega) (by simp only [hlk, Option.elim]; omega)
        ⟨ha₁, ha₂⟩, hb₁, hb₂⟩
    | none =>
      -- no request: one is opened for the part that is unstaked
      simp only [hlk, Except.bind_eq_ok, Except.orM_eq_ok, Asset.lt, Asset.cmp_eq_ok] at h
      obtain ⟨c, hc, h⟩ := h
      cases c
      · simp only [Bool.false_eq_true, if_false, Except.pure_eq_ok, Prod.mk.injEq] at h
        obtain ⟨rfl, rfl, rfl⟩ := h
        rcases hc with ⟨-, h₁⟩ | ⟨⟨-, h₁⟩, -, h₂⟩
        · cases h₁
        · have hn := of_decide_eq_false h₁.symm
          have hc := of_decide_eq_false h₂.symm
          simp only [asset0_amount, not_lt] at hn hc
          exact hkeep hn hc rfl rfl rfl
      · simp only [if_true, Except.bind_eq_ok, Except.pure_eq_ok, Prod.exists, Prod.mk.injEq] at h
        obtain ⟨a₁, b₁, hs₁, a₂, b₂, hs₂, rfl, rfl, rfl⟩ := h
        obtain ⟨e₁, ha₁, hb₁⟩ := openRefund_spec hd.netSymbol hd.net hs₁
        obtain ⟨e₂, ha₂, hb₂⟩ := openRefund_spec hd.cpuSymbol hd.cpu hs₂
        exact ⟨shift_row (fun q : RefundRequest => q.netAmount) (fun q => q.cpuAmount)
          { owner := f, requestTime := now, netAmount := a₁, cpuAmount := a₂ } (.inr rfl)
          (by simp only [hlk, Option.elim]; omega) (by simp only [hlk, Option.elim]; omega)
          ⟨ha₁, ha₂⟩, hb₁, hb₂⟩
  · -- neither unstaking nor staking to oneself: the deltas are a stake increase
    simp only [hcase, Bool.false_eq_true, if_false, Except.pure_eq_ok, Prod.mk.injEq] at h
    obtain ⟨rfl, rfl, rfl⟩ := h
    have hw := Asset.int64_add_of_range hd.net hd.cpu
    simp only [Bool.or_eq_true, decide_eq_true_eq, hw, not_or, not_lt] at hcase
    have := hd.sign
    exact hkeep (by omega) (by omega) rfl rfl rfl

theorem updateVoter_shift (hd : Deltas dn dc) {t t' : AList (fun _ : Name => VoterInfo)}
    {f : Name} (hrow : ∀ v, t.lookup f = some v → 0 ≤ v.staked ∧ v.staked < 2 ^ 63)
    (h : updateVoter t f dn dc = .ok t') :
    Shift (fun _ v => v.staked) t t' f (dn.amount + dc.amount) ∧
      ∀ v, t'.lookup f = some v → 0 ≤ v.staked ∧ v.staked < 2 ^ 63 := by
  simp only [updateVoter, Except.bind_eq_ok, eosioAssert_eq_ok, decide_eq_true_eq,
    Except.pure_eq_ok] at h
  obtain ⟨u, hu, -, hnn, rfl⟩ := h
  obtain ⟨-, hlo, hhi, rfl⟩ := Asset.addAssign_eq_ok.1 hu
  simp only [Asset.int64_add_of_range hd.net hd.cpu] at hlo hhi hnn ⊢
  unfold Asset.maxAmount at hlo hhi
  refine ⟨AList.shift_insert ?_, ?_⟩ <;> cases hlk : t.lookup f <;> simp only [hlk] at hnn ⊢
  · simp only [Option.elim, zero_add]
  · -- a non-negative raw sum of a stake and a checked delta did not wrap
    obtain ⟨hw, -⟩ := int64_add_of_nonneg (hrow _ hlk).1 (hrow _ hlk).2 (by omega) hnn
    simp only [Option.elim, hw]
  · simp only [AList.lookup_insert, Option.some.injEq]
    rintro _ rfl
    dsimp only
    omega
  · simp only [AList.lookup_insert, Option.some.injEq]
    rintro _ rfl
    obtain ⟨hw, hlt⟩ := int64_add_of_nonneg (hrow _ hlk).1 (hrow _ hlk).2 (by omega) hnn
    dsimp only
    rw [hw] at hnn ⊢
    exact ⟨hnn, hlt⟩

/-- A completed `changebw`: its checks held, and each table is what its block made of it; with
`transfer` the rows are kept under the receiver. -/
theorem changebw_blocks {env : Token.Env} {auths : List Name} {now : UInt32} {s s' : State}
    {f r : Name} {tr : Bool} (h : changebw env auths now s f r dn dc tr = .ok s') :
    Deltas dn dc ∧
      updateDelband s.delband (if tr then r else f) r dn dc = .ok s'.delband ∧
      updateTotals s.userres r dn dc = .ok s'.userres ∧
      updateVoter s.voters (if tr then r else f) dn dc = .ok s'.voters ∧
      ((eosioStake = f ∧ s'.refunds = s.refunds ∧ s'.token = s.token) ∨
        (eosioStake ≠ f ∧ ∃ nb cb ta,
          updateRefunds now s.refunds (if tr then r else f) r tr dn dc = .ok (s'.refunds, nb, cb) ∧
          nb.addAssign cb = .ok ta ∧
          ((0 < ta.amount ∧
              Token.transfer env [f] s.token f eosioStake ta "stake bandwidth" = .ok s'.token) ∨
            (ta.amount ≤ 0 ∧ s'.token = s.token)))) := by
  simp only [changebw, Except.bind_eq_ok, eosioAssert_eq_ok, decide_eq_true_eq, Prod.exists,
    Except.pure_eq_ok] at h
  obtain ⟨-, -, c, hc, -, -, sum, hsum, -, habs, delband, hdel, userres, htot, refunds, token, hrt,
    voters, hvot, rfl⟩ := h
  refine ⟨(deltas_of_checks hc hsum habs).1, hdel, htot, hvot, ?_⟩
  by_cases hst : eosioStake = f
  · simp only [hst, ne_eq, not_true_eq_false, if_false, Except.pure_eq_ok, Prod.mk.injEq] at hrt
    exact .inl ⟨hst, hrt.1.symm, hrt.2.symm⟩
  · simp only [hst, ne_eq, not_false_eq_true, if_true, Except.bind_eq_ok, Prod.exists, Asset.lt,
      Asset.cmp_eq_ok] at hrt
    obtain ⟨refunds', nb, cb, hr, ta, hta, c, ⟨-, rfl⟩, hrt⟩ := hrt
    -- the stake is paid in only when something is left after the refund block
    by_cases hpos : 0 < ta.amount
    · simp only [asset0_amount, hpos, decide_true, if_true, Except.bind_eq_ok, Except.pure_eq_ok,
        Prod.mk.injEq] at hrt
      obtain ⟨tok, htok, rfl, rfl⟩ := hrt
      exact .inr ⟨hst, nb, cb, ta, hr, hta, .inl ⟨hpos, htok⟩⟩
    · simp only [asset0_amount, hpos, decide_false, Bool.false_eq_true, if_false,
        Except.pure_eq_ok, Prod.mk.injEq] at hrt
      obtain ⟨rfl, rfl⟩ := hrt
      exact .inr ⟨hst, nb, cb, ta, hr, hta, .inr ⟨by omega, rfl⟩⟩

end Blocks

/-! ## The invariant across each action -/

namespace Inv

variable {s s' : State}

theorem changebw (hi : Inv s) {env : Token.Env} {auths : List Name} {now : UInt32} {f r : Name}
    {dn dc : Asset} {tr : Bool} (h : System.changebw env auths now s f r dn dc tr = .ok s') :
    Inv s' := by
  obtain ⟨hd, hdel, htot, hvot, hrest⟩ := changebw_blocks h
  obtain ⟨hdn, hdc, hdrow⟩ := updateDelband_shift hd (fun b hb => hi.delband _ b hb) hdel
  obtain ⟨htn, htc, htrow⟩ := updateTotals_shift hd (fun b hb => hi.userres _ b hb) htot
  obtain ⟨hv, hvrow⟩ := updateVoter_shift hd (fun v hv => hi.voters _ v hv) hvot
  -- the refund block keeps the refund rows, and the transfer the token invariant
  have hrt : Token.Inv s'.token ∧ ∀ k q, s'.refunds.lookup k = some q →
      CoreAmount q.netAmount ∧ CoreAmount q.cpuAmount := by
    rcases hrest with ⟨-, hr, ht⟩ | ⟨-, nb, cb, ta, hr, -, hpay⟩
    · rw [hr, ht]; exact ⟨hi.token, hi.refunds⟩
    · obtain ⟨⟨hrn, -, hrrow⟩, -⟩ := updateRefunds_shift hd (fun q hq => hi.refunds _ q hq) hr
      refine ⟨?_, hrn.lookup_of hi.refunds hrrow⟩
      rcases hpay with ⟨-, ht⟩ | ⟨-, ht⟩
      · exact hi.token.transfer ht
      · rw [ht]; exact hi.token
  refine ⟨hrt.1, fun r' => ?_, fun r' => ?_, fun f' => ?_, hdn.lookup_of hi.delband hdrow,
    htn.lookup_of hi.userres htrow, hrt.2, hv.lookup_of hi.voters hvrow⟩
  -- each total moves with the sum it is checked against: both by the delta, or both not at all
  · have h₁ := htn.lookup r'
    have h₂ := (hdn.restrict fun k => k.2 = r').sum
    have h₀ := hi.net r'
    simp only [heldNet, delegatedNet] at h₀ h₁ h₂ ⊢
    rw [h₁, h₂, h₀]
    by_cases hr : r' = r
    · simp [hr]
    · simp [hr, Ne.symm hr]
  · have h₁ := htc.lookup r'
    have h₂ := (hdc.restrict fun k => k.2 = r').sum
    have h₀ := hi.cpu r'
    simp only [heldCpu, delegatedCpu] at h₀ h₁ h₂ ⊢
    rw [h₁, h₂, h₀]
    by_cases hr : r' = r
    · simp [hr]
    · simp [hr, Ne.symm hr]
  · have h₁ := hv.lookup f'
    have h₂ := ((hdn.add hdc).restrict fun k => k.1 = f').sum
    have h₀ := hi.staked f'
    simp only [votingStake, stakedBy] at h₀ h₁ h₂ ⊢
    rw [h₁, h₂, h₀]
    by_cases hf : f' = if tr then r else f
    · simp [hf]
    · simp [hf, Ne.symm hf]

/-- What `eosio.stake` receives in `changebw` is what the refund request did not absorb, so its
balance moves with the stake the tables account for. -/
theorem changebw_stake (hi : Inv s) {env : Token.Env} {auths : List Name} {now : UInt32}
    {f r : Name} {dn dc : Asset} {tr : Bool} (hf : f ≠ eosioStake)
    (h : System.changebw env auths now s f r dn dc tr = .ok s') :
    stakeBalance s' - stakeBalance s = lockedStake s' - lockedStake s := by
  obtain ⟨hd, hdel, -, -, hrest⟩ := changebw_blocks h
  obtain ⟨hdn, hdc, -⟩ := updateDelband_shift hd (fun b hb => hi.delband _ b hb) hdel
  rcases hrest with ⟨hst, -⟩ | ⟨-, nb, cb, ta, hr, hta, hpay⟩
  · exact absurd hst.symm hf
  obtain ⟨⟨hrn, hrc, -⟩, hnb, hcb⟩ := updateRefunds_shift hd (fun q hq => hi.refunds _ q hq) hr
  obtain ⟨-, -, -, rfl⟩ := Asset.addAssign_eq_ok.1 hta
  have hw : int64 (nb.amount + cb.amount) = nb.amount + cb.amount := by
    have := hnb.2; have := hcb.2; unfold Asset.maxAmount at *
    exact int64_of_lt (by omega) (by omega)
  -- the transfer, when there is one, credits the leftover to the stake's core-token row
  have hbal : stakeBalance s' = stakeBalance s + (nb.amount + cb.amount) := by
    rcases hpay with ⟨-, ht⟩ | ⟨hle, ht⟩
    · have := hi.token.transfer_balance ht (eosioStake, coreSymbol.name)
      simp only [hnb.1, Prod.mk.injEq, hf.symm, false_and, if_false, if_true, hw,
        sub_zero] at this
      exact this
    · simp only [hw] at hle
      have := hnb.2.1; have := hcb.2.1
      simp only [stakeBalance, ht]
      omega
  have hlock : lockedStake s' = lockedStake s + (dn.amount + dc.amount) +
      ((nb.amount - dn.amount) + (cb.amount - dc.amount)) := by
    unfold lockedStake
    rw [(hdn.add hdc).sum, (hrn.add hrc).sum]
    omega
  omega

theorem delegatebw_changebw {env : Token.Env} {auths : List Name} {now : UInt32} {f r : Name}
    {n c : Asset} {tr : Bool} (h : System.delegatebw env auths now s f r n c tr = .ok s') :
    System.changebw env auths now s f r n c tr = .ok s' := by
  simp only [System.delegatebw, Except.bind_eq_ok] at h
  obtain ⟨-, -, -, -, -, -, -, -, -, -, -, -, -, -, -, -, h⟩ := h
  exact h

theorem undelegatebw_changebw {env : Token.Env} {auths : List Name} {now : UInt32} {tas : Int}
    {f r : Name} {n c : Asset} (h : System.undelegatebw env auths now tas s f r n c = .ok s') :
    System.changebw env auths now s f r n.neg c.neg false = .ok s' := by
  simp only [System.undelegatebw, Except.bind_eq_ok] at h
  obtain ⟨-, -, -, -, -, -, -, -, -, -, -, -, -, -, -, -, h⟩ := h
  exact h

theorem refund (hi : Inv s) {env : Token.Env} {auths : List Name} {now : UInt32} {owner : Name}
    (h : System.refund env auths now s owner = .ok s') : Inv s' := by
  simp only [System.refund, Except.bind_eq_ok, Token.getRow_eq_ok, Except.pure_eq_ok] at h
  obtain ⟨-, -, req, hreq, -, -, q, hq, tok, ht, rfl⟩ := h
  exact ⟨hi.token.transfer ht, hi.net, hi.cpu, hi.staked, hi.delband, hi.userres,
    fun k q' hq' => hi.refunds k q' (AList.lookup_of_lookup_erase hq').2, hi.voters⟩

/-- `refund` pays a request out of `eosio.stake`: both sides fall by the request. -/
theorem refund_stake (hi : Inv s) {env : Token.Env} {auths : List Name} {now : UInt32}
    {owner : Name} (h : System.refund env auths now s owner = .ok s') :
    stakeBalance s' - stakeBalance s = lockedStake s' - lockedStake s := by
  simp only [System.refund, Except.bind_eq_ok, Token.getRow_eq_ok, Except.pure_eq_ok] at h
  obtain ⟨-, -, req, hreq, -, -, q, hq, tok, ht, rfl⟩ := h
  obtain ⟨hn, hc⟩ := hi.refunds _ _ hreq
  obtain ⟨-, -, -, rfl⟩ := Asset.addAssign_eq_ok.1 hq
  have hw : int64 (req.netAmount.amount + req.cpuAmount.amount) =
      req.netAmount.amount + req.cpuAmount.amount := by
    have := hn.2; have := hc.2; unfold Asset.maxAmount at *
    exact int64_of_lt (by omega) (by omega)
  -- the payee is not `eosio.stake`: a transfer to oneself is refused
  have hne : eosioStake ≠ req.owner := by
    simp only [Token.transfer, Except.bind_eq_ok, eosioAssert_eq_ok, decide_eq_true_eq] at ht
    obtain ⟨-, h, -⟩ := ht
    exact h
  have hbal := hi.token.transfer_balance ht (eosioStake, coreSymbol.name)
  simp only [hn.1, Prod.mk.injEq, and_true, if_true, hne, if_false, hw, add_zero] at hbal
  have hlock := AList.sum_erase_of_lookup (fun _ q => q.netAmount.amount + q.cpuAmount.amount) hreq
  simp only [stakeBalance, lockedStake, hbal] at hlock ⊢
  omega

theorem tokenStep (hi : Inv s) {env : Token.Env} {r : Token.Request} {t : Token.State}
    (h : Token.step env s.token r = .ok t) : Inv { s with token := t } :=
  ⟨Token.Inv.step env _ _ _ hi.token h, hi.net, hi.cpu, hi.staked, hi.delband, hi.userres,
    hi.refunds, hi.voters⟩

end Inv

/-! ## Every run -/

theorem Inv.init : Inv State.init :=
  ⟨Token.Inv.init, fun _ => rfl, fun _ => rfl, fun _ => rfl, fun _ _ h => by simp [State.init] at h,
    fun _ _ h => by simp [State.init] at h, fun _ _ h => by simp [State.init] at h,
    fun _ _ h => by simp [State.init] at h⟩

/-- Each action, completed, keeps the invariant. -/
theorem Inv.step (env : Token.Env) : Transition.Preserves Inv (step env) := by
  rintro s ⟨auths, now, tas, act⟩ s' hi h
  cases act with
  | delegatebw f r n c tr => exact hi.changebw (Inv.delegatebw_changebw h)
  | undelegatebw f r n c => exact hi.changebw (Inv.undelegatebw_changebw h)
  | refund owner => exact hi.refund h
  | token act =>
    simp only [System.step, Except.bind_eq_ok, Except.pure_eq_ok] at h
    obtain ⟨t, ht, rfl⟩ := h
    exact hi.tokenStep ht

/-- The staking actions whose tokens do not come from `eosio.stake` itself. -/
def Action.StakesFromOutside : Action → Prop
  | .delegatebw f .. => f ≠ eosioStake
  | .undelegatebw f .. => f ≠ eosioStake
  | .refund _ => True
  | .token _ => False

/-- Each staking action moves the balance of `eosio.stake` by what it adds to the stake the
tables account for. -/
theorem Inv.stake_step (hi : Inv s) {env : Token.Env} {r : Request} (hr : r.act.StakesFromOutside)
    {s' : State} (h : System.step env s r = .ok s') :
    stakeBalance s' - stakeBalance s = lockedStake s' - lockedStake s := by
  obtain ⟨auths, now, tas, act⟩ := r
  cases act with
  | delegatebw f r n c tr => exact hi.changebw_stake hr (Inv.delegatebw_changebw h)
  | undelegatebw f r n c => exact hi.changebw_stake hr (Inv.undelegatebw_changebw h)
  | refund owner => exact hi.refund_stake h
  | token act => exact hr.elim

/-- Staking conservation: after any sequence of staking and token actions, each completing or
aborting as a whole, the totals of every receiver are the sums of what was delegated to it, the
voting stake of every account is the sum of what it delegated, every delegation, total and
refund is non-negative, and the next staking action (with tokens not taken from `eosio.stake`)
moves the balance of `eosio.stake` by exactly what it adds to the delegated and refunding
stake. -/
theorem staking_conserved (env : Token.Env) (reqs : List Request) :
    let s := Transition.run (step env) State.init reqs
    (∀ r, heldNet s r = delegatedNet s r ∧ heldCpu s r = delegatedCpu s r) ∧
    (∀ f, votingStake s f = stakedBy s f) ∧
    (∀ k b, s.delband.lookup k = some b → 0 ≤ b.netWeight.amount ∧ 0 ≤ b.cpuWeight.amount) ∧
    (∀ k b, s.userres.lookup k = some b → 0 ≤ b.netWeight.amount ∧ 0 ≤ b.cpuWeight.amount) ∧
    (∀ k q, s.refunds.lookup k = some q → 0 ≤ q.netAmount.amount ∧ 0 ≤ q.cpuAmount.amount) ∧
    (∀ (r : Request) s', r.act.StakesFromOutside → step env s r = .ok s' →
      stakeBalance s' - stakeBalance s = lockedStake s' - lockedStake s) := by
  intro s
  have hi : Inv s := (Inv.step env).run Inv.init reqs
  refine ⟨fun r => ⟨hi.net r, hi.cpu r⟩, hi.staked, fun k b h => ?_, fun k b h => ?_,
    fun k q h => ?_, fun r s' hr h => hi.stake_step hr h⟩
  · exact ⟨(hi.delband k b h).1.2.1, (hi.delband k b h).2.2.1⟩
  · exact ⟨(hi.userres k b h).1.2.1, (hi.userres k b h).2.2.1⟩
  · exact ⟨(hi.refunds k q h).1.2.1, (hi.refunds k q h).2.2.1⟩


end System
end Safeos
