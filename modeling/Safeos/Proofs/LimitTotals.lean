import Safeos.Chain.ResourceLimits
import Safeos.Lib.Table

/-!
# The weight totals of the resource limits manager

The state object keeps three totals, of RAM bytes, cpu weight and net weight, which
`process_account_limit_updates` moves by the difference each time a pending limits row replaces
an actual one. `TotalsInv` says that each total is the sum of the positive values of the actual
rows, and that every pending row has an actual one; every call keeps it (`TotalsInv.preserves`).

The loop of `process_account_limit_updates` is `List.foldlM` over the pending owners, and
`Processing` is its invariant: the owners still to come are exactly those of the pending rows,
and every account reports what it did before the loop. Three sums over the rows describe the
loop: `actualTotal` (what the totals are), `pendingTotal` (what the pending rows can add) and
`viewTotal` (what the totals will be once every pending row is applied). A completed loop leaves
the totals at `viewTotal`, so three accounts at the largest cpu weight overflow the cpu total
(`heavy_cpu_weights_overflow`); the loop completes whenever the totals with the pending values
added fit (`processAccountLimitUpdates_ok`).
-/

namespace Safeos
namespace ResourceLimits

/-- The three limits a total is kept of. -/
inductive LimitField
  | ramBytes
  | cpuWeight
  | netWeight
deriving DecidableEq

namespace LimitField

def get : LimitField → Limits → Int
  | ramBytes, l => l.ramBytes
  | cpuWeight, l => l.cpuWeight
  | netWeight, l => l.netWeight

def total : LimitField → State → UInt64
  | ramBytes, s => s.totalRamBytes
  | cpuWeight, s => s.totalCpuWeight
  | netWeight, s => s.totalNetWeight

end LimitField

/-- What a row adds to the total of `f`: the positive value of an actual row. -/
def counted (f : LimitField) (k : Bool × Name) (l : Limits) : Int :=
  if k.1 then 0 else max (f.get l) 0

/-- The sum of the positive values of `f` over the actual rows. -/
def actualTotal (s : State) (f : LimitField) : Int :=
  s.limits.sum (counted f)

/-- The state object's totals are the sums over the actual rows, and every pending row has an
actual one. -/
structure TotalsInv (s : State) : Prop where
  total : ∀ f : LimitField, (f.total s).toNat = actualTotal s f
  actual : ∀ o l, s.limits.lookup (true, o) = some l → ∃ l', s.limits.lookup (false, o) = some l'

/-- What a row adds to the sum of the pending values of `f`. -/
def pendingCounted (f : LimitField) (k : Bool × Name) (l : Limits) : Int :=
  if k.1 then max (f.get l) 0 else 0

/-- The sum of the positive pending values of `f`: at most what processing them can add. -/
def pendingTotal (s : State) (f : LimitField) : Int :=
  s.limits.sum (pendingCounted f)

/-- What an actual row adds to the total once the pending row of its owner, if any, has replaced
it: the positive value of `f` that `get_account_limits` reports. -/
def viewCounted (L : AList fun _ : Bool × Name => Limits) (f : LimitField) (k : Bool × Name)
    (l : Limits) : Int :=
  if k.1 then 0 else max (f.get ((L.lookup (true, k.2)).getD l)) 0

/-- The total of `f` that applying every pending row leads to. -/
def viewTotal (s : State) (f : LimitField) : Int :=
  s.limits.sum (viewCounted s.limits f)

theorem counted_nonneg (f : LimitField) (k : Bool × Name) (l : Limits) : 0 ≤ counted f k l := by
  unfold counted
  split_ifs <;> omega

theorem pendingCounted_nonneg (f : LimitField) (k : Bool × Name) (l : Limits) :
    0 ≤ pendingCounted f k l := by
  unfold pendingCounted
  split_ifs <;> omega

/-- Each total holds the value of every actual row. -/
theorem TotalsInv.actual_le_total {s : State} (hs : TotalsInv s) {o : Name} {q : Limits}
    (hq : s.limits.lookup (false, o) = some q) (f : LimitField) :
    max (f.get q) 0 ≤ (f.total s).toNat := by
  rw [hs.total f]
  exact AList.le_sum_of_lookup (counted_nonneg f) hq

/-! ### Moving a pending row to the actual one -/

section Moved

variable {L : AList fun _ : Bool × Name => Limits} {o : Name} {p q : Limits} {f : LimitField}

/-- The rows after the pending row `p` of `o` has replaced its actual row. -/
theorem lookup_moved (k : Bool × Name) :
    ((L.insert (false, o) p).erase (true, o)).lookup k =
      if k = (true, o) then none else if k = (false, o) then some p else L.lookup k := by
  by_cases ht : k = (true, o)
  · rw [if_pos ht, ht, AList.lookup_erase]
  · rw [if_neg ht, AList.lookup_erase_ne ht]
    by_cases hf : k = (false, o)
    · rw [if_pos hf, hf, AList.lookup_insert]
    · rw [if_neg hf, AList.lookup_insert_ne hf]

/-- Other owners' rows are left. -/
theorem lookup_moved_ne {o' : Name} (ho : o' ≠ o) (b : Bool) :
    ((L.insert (false, o) p).erase (true, o)).lookup (b, o') = L.lookup (b, o') := by
  rw [lookup_moved, if_neg (by simp [ho]), if_neg (by simp [ho])]

theorem sum_counted_moved (hq : L.lookup (false, o) = some q) :
    ((L.insert (false, o) p).erase (true, o)).sum (counted f) + max (f.get q) 0 =
      max (f.get p) 0 + L.sum (counted f) := by
  rw [AList.sum_eq_of_frame_of_zero _ (fun _ => rfl) fun _ h => AList.lookup_erase_ne h]
  exact AList.sum_insert_of_lookup (counted f) p hq

theorem sum_pendingCounted_moved (hp : L.lookup (true, o) = some p) :
    ((L.insert (false, o) p).erase (true, o)).sum (pendingCounted f) + max (f.get p) 0 =
      L.sum (pendingCounted f) := by
  have hins : (L.insert (false, o) p).lookup (true, o) = some p := by
    rw [AList.lookup_insert_ne (by simp), hp]
  rw [← AList.sum_eq_of_frame_of_zero (t := L.insert (false, o) p) _ (fun _ => rfl)
    fun _ h => AList.lookup_insert_ne h]
  exact AList.sum_erase_of_lookup (pendingCounted f) hins

/-- The value each owner reports is kept: `o` reported its pending row, and now its actual row
holds it. -/
theorem sum_viewCounted_moved (hq : L.lookup (false, o) = some q)
    (hp : L.lookup (true, o) = some p) :
    ((L.insert (false, o) p).erase (true, o)).sum
        (viewCounted ((L.insert (false, o) p).erase (true, o)) f) = L.sum (viewCounted L f) := by
  -- first read every row of the new table through the old one
  have hrow : ∀ k l, ((L.insert (false, o) p).erase (true, o)).lookup k = some l →
      viewCounted ((L.insert (false, o) p).erase (true, o)) f k l = viewCounted L f k l := by
    rintro ⟨b, o'⟩ l hl
    cases b with
    | true => rfl
    | false =>
      simp only [viewCounted, Bool.false_eq_true, if_false]
      by_cases ho : o' = o
      · subst ho
        have hlp : l = p := by
          rw [lookup_moved, if_neg (by simp), if_pos rfl] at hl
          exact (Option.some_inj.1 hl).symm
        rw [hlp, lookup_moved, if_pos rfl, hp]
        rfl
      · rw [lookup_moved, if_neg (by simp [ho]), if_neg (by simp)]
  have hview : viewCounted L f (false, o) q = viewCounted L f (false, o) p := by
    simp [viewCounted, hp]
  rw [AList.sum_congr hrow,
    AList.sum_eq_of_frame_of_zero _ (fun _ => rfl) fun _ h => AList.lookup_erase_ne h]
  have := AList.sum_insert_of_lookup (viewCounted L f) p hq
  rw [hview] at this
  exact add_right_cancel (this.trans (add_comm _ _))

end Moved

namespace State

variable {s s' : State}

theorem initializeAccount_eq_ok {a : Name} (h : s.initializeAccount a = .ok s') :
    s.limits.lookup (false, a) = none ∧
      s' = { s with limits := s.limits.insert (false, a) {}, usage := s.usage.insert a {} } := by
  unfold initializeAccount at h
  simp only [Except.bind_eq_ok, eosioAssert_eq_ok, Option.isNone_iff_eq_none, Except.pure_eq_ok,
    exists_const] at h
  exact ⟨h.1, h.2.2.symm⟩

@[simp] theorem getLimitsRow_eq_ok {k : Bool × Name} {l : Limits} :
    s.getLimitsRow k = .ok l ↔ s.limits.lookup k = some l := by
  unfold getLimitsRow
  split <;> simp_all [pure, Except.pure, throw, throwThe, MonadExceptOf.throw]

theorem setAccountLimits_eq_ok {a : Name} {r n c : Int} {b : Bool}
    (h : s.setAccountLimits a r n c = .ok (s', b)) :
    ((∃ l, s.limits.lookup (true, a) = some l) ∨ ∃ l, s.limits.lookup (false, a) = some l) ∧
      s' = { s with limits := s.limits.insert (true, a) ⟨n, c, r⟩ } := by
  unfold setAccountLimits at h
  -- `find_or_create_pending_limits`: the pending row is there, or is copied from the actual one
  split at h
  · simp only [Except.bind_eq_ok, getLimitsRow_eq_ok, Except.pure_eq_ok, Prod.mk.injEq] at h
    obtain ⟨_, ⟨l, hl, rfl⟩, rfl, -⟩ := h
    exact ⟨.inr ⟨l, hl⟩, by simp [AList.insert_insert]⟩
  · rename_i l hl
    simp only [Except.bind_eq_ok, Except.pure_eq_ok, Prod.mk.injEq] at h
    obtain ⟨_, rfl, rfl, -⟩ := h
    exact ⟨.inl ⟨l, hl⟩, rfl⟩

/-- `update_state_and_value` from a total that holds the old value: the new total, unless it
overflows. -/
theorem updateStateAndValue_eq {total : UInt64} {value pendingValue : Int}
    (hv : max value 0 ≤ total.toNat) :
    updateStateAndValue total value pendingValue =
      if (total.toNat : Int) - max value 0 + max pendingValue 0 ≤ 2 ^ 64 - 1 then
        .ok (UInt64.ofNat (total.toNat - max value 0 + max pendingValue 0).toNat)
      else .error "overflow when applying new value to ${which}" := by
  have ht := total.toNat_lt
  -- the old value comes off without underflow
  have hsub : ∃ t₁ : UInt64, (t₁.toNat : Int) = total.toNat - max value 0 ∧
      (if value > 0 then do
        eosioAssert (decide (total.toNat ≥ value)) "underflow when reverting old value to ${which}"
        pure (total - value.toNat.toUInt64)
      else pure total : Except String UInt64) = .ok t₁ := by
    by_cases h0 : value > 0
    · refine ⟨total - value.toNat.toUInt64, ?_, ?_⟩
      · rw [UInt64.toNat_sub_of_le _ _ (UInt64.le_iff_toNat_le.2 (by rw [UInt64.toNat_ofNat']; omega)),
          UInt64.toNat_ofNat']
        omega
      · simp only [if_pos h0, decide_eq_true (show (total.toNat : Int) ≥ value by omega),
          eosioAssert_true]
        rfl
    · exact ⟨total, by omega, by simp only [if_neg h0]; rfl⟩
  obtain ⟨t₁, ht₁, hrun⟩ := hsub
  unfold updateStateAndValue
  rw [hrun]
  show (if pendingValue > 0 then _ else _) = _
  have huint : (uint64Max.toNat : Int) = 2 ^ 64 - 1 := rfl
  have ht₁lt := t₁.toNat_lt
  -- then the pending value goes on, unless that overflows
  by_cases hp : pendingValue > 0
  · by_cases hfit : (total.toNat : Int) - max value 0 + max pendingValue 0 ≤ 2 ^ 64 - 1
    · rw [if_pos hp, if_pos hfit,
        decide_eq_true (show (uint64Max.toNat : Int) - t₁.toNat ≥ pendingValue by omega),
        eosioAssert_true]
      show Except.ok _ = Except.ok _
      congr 1
      apply UInt64.toNat_inj.1
      rw [UInt64.toNat_add, UInt64.toNat_ofNat', UInt64.toNat_ofNat']
      omega
    · rw [if_pos hp, if_neg hfit,
        decide_eq_false (show ¬(uint64Max.toNat : Int) - t₁.toNat ≥ pendingValue by omega),
        eosioAssert_false]
      rfl
  · rw [if_neg hp, if_pos (by omega)]
    show Except.ok _ = Except.ok _
    congr 1
    apply UInt64.toNat_inj.1
    rw [UInt64.toNat_ofNat']
    omega

/-- The new total of `f` when the pending value `p` replaces the actual value `q`. -/
def movedTotal (s : State) (f : LimitField) (q p : Limits) : Int :=
  (f.total s).toNat - max (f.get q) 0 + max (f.get p) 0

/-- A pass of `process_account_limit_updates` from totals that hold the actual values: it moves
the pending row to the actual one and each total by the difference, or it overflows. -/
theorem applyPendingLimits_cases {o : Name} {p q : Limits}
    (hq : s.limits.lookup (false, o) = some q) (hp : s.limits.lookup (true, o) = some p)
    (hv : ∀ f : LimitField, max (f.get q) 0 ≤ (f.total s).toNat) :
    (applyPendingLimits s o = .error "overflow when applying new value to ${which}" ∧
        ∃ f, ¬ movedTotal s f q p ≤ 2 ^ 64 - 1) ∨
      (∀ f, movedTotal s f q p ≤ 2 ^ 64 - 1) ∧ ∃ s', applyPendingLimits s o = .ok s' ∧
        s'.limits = (s.limits.insert (false, o) p).erase (true, o) ∧ s'.usage = s.usage ∧
        ∀ f, ((f.total s').toNat : Int) = movedTotal s f q p := by
  have hget : ∀ {k : Bool × Name} {l : Limits}, s.limits.lookup k = some l → s.getLimitsRow k = .ok l :=
    fun h => getLimitsRow_eq_ok.2 h
  unfold applyPendingLimits
  rw [hget hq, hget hp]
  simp only [bind, Except.bind]
  have hram : max q.ramBytes 0 ≤ s.totalRamBytes.toNat := hv .ramBytes
  have hcpu : max q.cpuWeight 0 ≤ s.totalCpuWeight.toNat := hv .cpuWeight
  have hnet : max q.netWeight 0 ≤ s.totalNetWeight.toNat := hv .netWeight
  rw [updateStateAndValue_eq hram, updateStateAndValue_eq hcpu, updateStateAndValue_eq hnet]
  -- the three totals are checked in turn: ram, cpu, net
  by_cases h₁ : (s.totalRamBytes.toNat : Int) - max q.ramBytes 0 + max p.ramBytes 0 ≤ 2 ^ 64 - 1
  swap
  · exact .inl ⟨by rw [if_neg h₁], .ramBytes, h₁⟩
  by_cases h₂ : (s.totalCpuWeight.toNat : Int) - max q.cpuWeight 0 + max p.cpuWeight 0 ≤ 2 ^ 64 - 1
  swap
  · exact .inl ⟨by rw [if_pos h₁, if_neg h₂], .cpuWeight, h₂⟩
  by_cases h₃ : (s.totalNetWeight.toNat : Int) - max q.netWeight 0 + max p.netWeight 0 ≤ 2 ^ 64 - 1
  swap
  · exact .inl ⟨by rw [if_pos h₁, if_pos h₂, if_neg h₃], .netWeight, h₃⟩
  have hall : ∀ f, movedTotal s f q p ≤ 2 ^ 64 - 1 := by
    intro f
    cases f <;> assumption
  rw [if_pos h₁, if_pos h₂, if_pos h₃]
  refine .inr ⟨hall, _, rfl, rfl, rfl, fun f => ?_⟩
  have hpos : ∀ f, 0 ≤ movedTotal s f q p := fun f => by
    have := hv f
    simp only [movedTotal]
    omega
  have hfit := hall f
  have hnonneg := hpos f
  cases f <;>
  · simp only [LimitField.total, movedTotal, LimitField.get, UInt64.toNat_ofNat'] at hfit hnonneg ⊢
    omega

theorem getAccountLimits_of_pending {a : Name} {l : Limits}
    (h : s.limits.lookup (true, a) = some l) : s.getAccountLimits a = .ok l := by
  unfold getAccountLimits
  rw [h]
  rfl

/-- What an account reports depends on its two rows only. -/
theorem getAccountLimits_congr {a : Name}
    (ht : s'.limits.lookup (true, a) = s.limits.lookup (true, a))
    (hf : s'.limits.lookup (false, a) = s.limits.lookup (false, a)) :
    s'.getAccountLimits a = s.getAccountLimits a := by
  unfold getAccountLimits getLimitsRow
  rw [ht, hf]

/-- A completed pass moved the pending row of `o` over its actual row and each total by the
difference. -/
theorem applyPendingLimits_eq_ok (hs : TotalsInv s) {o : Name} {p : Limits}
    (hp : s.limits.lookup (true, o) = some p) (h : applyPendingLimits s o = .ok s') :
    ∃ q, s.limits.lookup (false, o) = some q ∧
      s'.limits = (s.limits.insert (false, o) p).erase (true, o) ∧ s'.usage = s.usage ∧
      ∀ f, ((f.total s').toNat : Int) = movedTotal s f q p := by
  obtain ⟨q, hq⟩ := hs.actual o p hp
  rcases applyPendingLimits_cases hq hp (hs.actual_le_total hq) with ⟨herr, -⟩ | ⟨-, s'', hok, hlim, husage, htot⟩
  · rw [herr] at h
    cases h
  · rw [hok] at h
    cases h
    exact ⟨q, hq, hlim, husage, htot⟩

end State

namespace TotalsInv

variable {s s' : State}

theorem initializeDatabase : TotalsInv State.initializeDatabase where
  total f := by cases f <;> rfl
  actual o l h := by simp [State.initializeDatabase] at h

theorem initializeAccount (hs : TotalsInv s) {a : Name} (h : s.initializeAccount a = .ok s') :
    TotalsInv s' := by
  obtain ⟨hnew, rfl⟩ := State.initializeAccount_eq_ok h
  -- the new actual row is unlimited: it counts nothing
  refine ⟨fun f => ?_, fun o l hl => ?_⟩
  · have hsum := AList.sum_insert_of_notMem (counted f) ({} : Limits)
      (AList.lookup_eq_none.1 hnew)
    have hzero : counted f (false, a) {} = 0 := by cases f <;> rfl
    have htot := hs.total f
    unfold actualTotal at htot ⊢
    rw [hsum, hzero, zero_add, ← htot]
    cases f <;> rfl
  · rw [AList.lookup_insert_ne (by simp)] at hl
    obtain ⟨l', hl'⟩ := hs.actual o l hl
    by_cases ho : o = a
    · subst ho
      exact ⟨{}, AList.lookup_insert _⟩
    · exact ⟨l', by rwa [AList.lookup_insert_ne (by simp [ho])]⟩

theorem setAccountLimits (hs : TotalsInv s) {a : Name} {r n c : Int} {b : Bool}
    (h : s.setAccountLimits a r n c = .ok (s', b)) : TotalsInv s' := by
  obtain ⟨hrow, rfl⟩ := State.setAccountLimits_eq_ok h
  refine ⟨fun f => ?_, fun o l hl => ?_⟩
  · have htot := hs.total f
    unfold actualTotal at htot ⊢
    rw [AList.sum_eq_of_frame_of_zero _ (fun _ => rfl) fun _ h => AList.lookup_insert_ne h, ← htot]
    cases f <;> rfl
  · show ∃ l', (s.limits.insert (true, a) _).lookup (false, o) = some l'
    rw [AList.lookup_insert_ne (by simp)]
    by_cases ho : o = a
    · subst ho
      rcases hrow with ⟨l, hl⟩ | hl
      · exact hs.actual o l hl
      · exact hl
    · rw [show (s.limits.insert (true, a) ⟨n, c, r⟩).lookup (true, o) = s.limits.lookup (true, o)
        from AList.lookup_insert_ne (by simp [ho])] at hl
      exact hs.actual o l hl

theorem applyPendingLimits (hs : TotalsInv s) {o : Name} {p : Limits}
    (hp : s.limits.lookup (true, o) = some p) (h : s.applyPendingLimits o = .ok s') :
    TotalsInv s' := by
  obtain ⟨q, hq, hlim, -, htot⟩ := State.applyPendingLimits_eq_ok hs hp h
  refine ⟨fun f => ?_, fun o' l hl => ?_⟩
  · have := sum_counted_moved (f := f) (p := p) hq
    rw [htot, State.movedTotal, hs.total f, actualTotal, actualTotal, hlim]
    omega
  · rw [hlim, lookup_moved] at hl
    rw [hlim, lookup_moved, if_neg (by simp)]
    by_cases ho : o' = o
    · subst ho
      rw [if_pos rfl] at hl
      cases hl
    · rw [if_neg (by simp [ho]), if_neg (by simp)] at hl
      rw [if_neg (by simp [ho])]
      exact hs.actual o' l hl

end TotalsInv

/-! ### Processing the pending rows -/

namespace State

variable {s s' t : State}

theorem mem_pendingOwners {o : Name} :
    o ∈ s.pendingOwners ↔ ∃ p, s.limits.lookup (true, o) = some p := by
  unfold pendingOwners
  rw [List.mem_mergeSort, List.mem_filterMap]
  constructor
  · rintro ⟨⟨b, o'⟩, hk, ho⟩
    cases b with
    | false => cases ho
    | true =>
      cases ho
      exact Option.isSome_iff_exists.1 (AList.lookup_isSome.2 (AList.mem_keys.2 hk))
  · rintro ⟨p, hp⟩
    refine ⟨(true, o), AList.mem_keys.1 (AList.lookup_isSome.1 ?_), rfl⟩
    rw [hp]
    rfl

theorem nodup_pendingOwners : s.pendingOwners.Nodup := by
  unfold pendingOwners
  refine (List.mergeSort_perm _ _).nodup_iff.2 (List.Nodup.filterMap ?_ s.limits.keys_nodup)
  rintro ⟨b, o⟩ ⟨b', o'⟩ n h h'
  cases b <;> cases b' <;> simp_all

end State

/-- The loop of `process_account_limit_updates` from `s₀`, with the owners `rest` still to come:
they are exactly the owners of pending rows, once each, and every account reports, and the totals
add up to, what they did in `s₀`. -/
structure Processing (s₀ s : State) (rest : List Name) : Prop where
  inv : TotalsInv s
  pending : ∀ o ∈ rest, ∃ p, s.limits.lookup (true, o) = some p
  nodup : rest.Nodup
  owners : ∀ o p, s.limits.lookup (true, o) = some p → o ∈ rest
  view : ∀ a, s.getAccountLimits a = s₀.getAccountLimits a
  viewTotal : ∀ f, viewTotal s f = viewTotal s₀ f

namespace Processing

variable {s₀ s s' : State} {o : Name} {rest : List Name}

theorem start (hs : TotalsInv s) : Processing s s s.pendingOwners where
  inv := hs
  pending _ ho := State.mem_pendingOwners.1 ho
  nodup := State.nodup_pendingOwners
  owners _ p hp := State.mem_pendingOwners.2 ⟨p, hp⟩
  view _ := rfl
  viewTotal _ := rfl

/-- One pass of the loop takes the first owner off. -/
theorem step (h : Processing s₀ s (o :: rest)) (happ : s.applyPendingLimits o = .ok s') :
    Processing s₀ s' rest := by
  obtain ⟨p, hp⟩ := h.pending o List.mem_cons_self
  obtain ⟨q, hq, hlim, -, -⟩ := State.applyPendingLimits_eq_ok h.inv hp happ
  obtain ⟨hfresh, hnodup⟩ := List.nodup_cons.1 h.nodup
  refine ⟨h.inv.applyPendingLimits hp happ, fun o' ho' => ?_, hnodup, fun o' p' hp' => ?_,
    fun a => ?_, fun f => ?_⟩
  · -- the owners still to come keep their pending rows
    have hne : o' ≠ o := fun he => hfresh (he ▸ ho')
    rw [hlim, lookup_moved_ne hne]
    exact h.pending o' (List.mem_cons_of_mem o ho')
  · -- and no other pending row appears
    by_cases hne : o' = o
    · rw [hlim, hne, lookup_moved, if_pos rfl] at hp'
      cases hp'
    · rw [hlim, lookup_moved_ne hne] at hp'
      exact (List.mem_cons.1 (h.owners o' p' hp')).resolve_left hne
  · rw [← h.view a]
    by_cases hne : a = o
    · -- `o` reported its pending row, which is now its actual one
      subst hne
      rw [State.getAccountLimits_of_pending hp]
      unfold State.getAccountLimits
      rw [hlim, lookup_moved, if_pos rfl, State.getLimitsRow_eq_ok, hlim, lookup_moved,
        if_neg (by simp), if_pos rfl]
    · exact State.getAccountLimits_congr (by rw [hlim, lookup_moved_ne hne])
        (by rw [hlim, lookup_moved_ne hne])
  · rw [← h.viewTotal f]
    unfold ResourceLimits.viewTotal
    rw [hlim]
    exact sum_viewCounted_moved hq hp

end Processing




namespace State

variable {s t : State} {e : String}

/-- The loop over the pending owners keeps `Processing`, to its end. -/
theorem processAccountLimitUpdates_processing (hs : TotalsInv s)
    (h : s.processAccountLimitUpdates = .ok t) : Processing s t [] :=
  List.foldlM_except_inv (fun _ _ _ _ hp happ => hp.step happ) (Processing.start hs) h

/-- From totals that hold the actual values, the loop never fails to revert an old value: the
one way it fails is a total overflowing. -/
theorem processAccountLimitUpdates_error (hs : TotalsInv s)
    (h : s.processAccountLimitUpdates = .error e) :
    e = "overflow when applying new value to ${which}" := by
  obtain ⟨s', o, rest, hP, herr⟩ :=
    List.foldlM_except_error (P := Processing s) (fun _ _ _ _ hp happ => hp.step happ)
      (Processing.start hs) h
  obtain ⟨p, hp⟩ := hP.pending o List.mem_cons_self
  obtain ⟨q, hq⟩ := hP.inv.actual o p hp
  rcases applyPendingLimits_cases hq hp (hP.inv.actual_le_total hq) with
    ⟨hover, -⟩ | ⟨-, s'', hok, -⟩
  · rw [hover] at herr
    cases herr
    rfl
  · rw [hok] at herr
    cases herr

/-- A completed loop leaves no pending row. -/
theorem processAccountLimitUpdates_no_pending (hs : TotalsInv s)
    (h : s.processAccountLimitUpdates = .ok t) (o : Name) : t.limits.lookup (true, o) = none := by
  cases hp : t.limits.lookup (true, o) with
  | none => rfl
  | some p => exact absurd ((processAccountLimitUpdates_processing hs h).owners o p hp) List.not_mem_nil

/-- After a completed loop each total is what the accounts report, summed. -/
theorem processAccountLimitUpdates_total (hs : TotalsInv s)
    (h : s.processAccountLimitUpdates = .ok t) (f : LimitField) :
    ((f.total t).toNat : Int) = viewTotal s f := by
  have hP := processAccountLimitUpdates_processing hs h
  -- with no pending row left, every actual row reports itself
  have hself : viewTotal t f = actualTotal t f := AList.sum_congr fun k l _ => by
    obtain ⟨b, o⟩ := k
    cases b with
    | true => rfl
    | false =>
      simp only [viewCounted, counted, Bool.false_eq_true, if_false,
        processAccountLimitUpdates_no_pending hs h o, Option.getD_none]
  rw [← hP.viewTotal f, hself, hP.inv.total f]

/-- The loop completes when each total, with every positive pending value added, fits. -/
theorem processAccountLimitUpdates_ok (hs : TotalsInv s)
    (hfit : ∀ f, ((f.total s).toNat : Int) + pendingTotal s f ≤ 2 ^ 64 - 1) :
    ∃ t, s.processAccountLimitUpdates = .ok t := by
  -- the bound is kept by every pass: a pending value moves from the second addend to the first
  let P : State → List Name → Prop := fun s' rest =>
    Processing s s' rest ∧ ∀ f, ((f.total s').toNat : Int) + pendingTotal s' f ≤ 2 ^ 64 - 1
  have hpass : ∀ s' o rest, P s' (o :: rest) → ∃ s'', s'.applyPendingLimits o = .ok s'' ∧ P s'' rest := by
    rintro s' o rest ⟨hP, hb⟩
    obtain ⟨p, hp⟩ := hP.pending o List.mem_cons_self
    obtain ⟨q, hq⟩ := hP.inv.actual o p hp
    have hpend : ∀ f, max (f.get p) 0 ≤ pendingTotal s' f := fun f =>
      AList.le_sum_of_lookup (pendingCounted_nonneg f) hp
    rcases applyPendingLimits_cases hq hp (hP.inv.actual_le_total hq) with
      ⟨-, f, hover⟩ | ⟨-, s'', hok, hlim, -, htot⟩
    · have := hb f
      have := hpend f
      simp only [movedTotal] at hover
      omega
    · refine ⟨s'', hok, hP.step hok, fun f => ?_⟩
      have hmoved := sum_pendingCounted_moved (f := f) hp
      rw [← hlim] at hmoved
      have := hb f
      rw [htot f, movedTotal]
      unfold pendingTotal at this ⊢
      omega
  obtain ⟨t, ht, -⟩ := List.foldlM_except_ok (P := P) hpass ⟨Processing.start hs, hfit⟩
  exact ⟨t, ht⟩

/-- `set_account_limits` makes the account report the new limits and leaves every other
account's. -/
theorem getAccountLimits_setAccountLimits {s' : State} {a : Name} {r n c : Int} {b : Bool}
    (h : s.setAccountLimits a r n c = .ok (s', b)) :
    s'.getAccountLimits a = .ok ⟨n, c, r⟩ ∧
      ∀ a', a' ≠ a → s'.getAccountLimits a' = s.getAccountLimits a' := by
  obtain ⟨-, rfl⟩ := setAccountLimits_eq_ok h
  refine ⟨getAccountLimits_of_pending (AList.lookup_insert _), fun a' ha => ?_⟩
  exact getAccountLimits_congr (AList.lookup_insert_ne (by simp [ha]))
    (AList.lookup_insert_ne (by simp))

end State

/-- Every call that completes keeps the invariant. -/
theorem TotalsInv.preserves : Transition.Preserves TotalsInv step := by
  rintro s (a | ⟨a, r, n, c⟩ | _) s' hs h
  · exact hs.initializeAccount h
  · obtain ⟨⟨s'', b⟩, hset, rfl⟩ := Except.map_eq_ok.1 h
    exact hs.setAccountLimits hset
  · exact (State.processAccountLimitUpdates_processing hs h).inv

/-- The weight totals over the runs of the manager's calls: in every state reached from
`initialize_database`, each total is the sum of the positive values of the actual rows. From
such a state `process_account_limit_updates` can fail only by overflowing a total, never by
underflow; when it completes it leaves no pending row, every account reports what it did before
(the limits last set, by the last conjunct), and each total is the sum of those; and it
completes whenever each total, with the positive pending values added, fits in 64 bits. -/
theorem limit_totals_kept (reqs : List Request) :
    let s := Transition.run step State.initializeDatabase reqs
    (∀ f, ((f.total s).toNat : Int) = actualTotal s f) ∧
    (∀ e, s.processAccountLimitUpdates = .error e →
      e = "overflow when applying new value to ${which}") ∧
    (∀ t, s.processAccountLimitUpdates = .ok t →
      (∀ o, t.limits.lookup (true, o) = none) ∧ (∀ a, t.getAccountLimits a = s.getAccountLimits a) ∧
        ∀ f, ((f.total t).toNat : Int) = viewTotal s f) ∧
    ((∀ f, ((f.total s).toNat : Int) + pendingTotal s f ≤ 2 ^ 64 - 1) →
      ∃ t, s.processAccountLimitUpdates = .ok t) ∧
    ∀ a r n c s' b, s.setAccountLimits a r n c = .ok (s', b) →
      s'.getAccountLimits a = .ok ⟨n, c, r⟩ ∧
        ∀ a', a' ≠ a → s'.getAccountLimits a' = s.getAccountLimits a' := by
  intro s
  have hs : TotalsInv s := TotalsInv.preserves.run TotalsInv.initializeDatabase reqs
  refine ⟨hs.total, fun e h => State.processAccountLimitUpdates_error hs h, fun t h => ?_,
    State.processAccountLimitUpdates_ok hs, fun a r n c s' b h => State.getAccountLimits_setAccountLimits h⟩
  exact ⟨State.processAccountLimitUpdates_no_pending hs h,
    (State.processAccountLimitUpdates_processing hs h).view,
    State.processAccountLimitUpdates_total hs h⟩

/-- Three accounts set to the largest cpu weight: every call completes, and processing them
overflows the cpu total on the third. -/
theorem heavy_cpu_weights_overflow :
    (Transition.run step State.initializeDatabase
      [.initializeAccount ⟨1⟩, .initializeAccount ⟨2⟩, .initializeAccount ⟨3⟩,
        .setAccountLimits ⟨1⟩ (-1) (-1) int64Max, .setAccountLimits ⟨2⟩ (-1) (-1) int64Max,
        .setAccountLimits ⟨3⟩ (-1) (-1) int64Max]).processAccountLimitUpdates =
      .error "overflow when applying new value to ${which}" := by
  have hs := TotalsInv.preserves.run TotalsInv.initializeDatabase
    [.initializeAccount ⟨1⟩, .initializeAccount ⟨2⟩, .initializeAccount ⟨3⟩,
      .setAccountLimits ⟨1⟩ (-1) (-1) int64Max, .setAccountLimits ⟨2⟩ (-1) (-1) int64Max,
      .setAccountLimits ⟨3⟩ (-1) (-1) int64Max]
  cases h : State.processAccountLimitUpdates _ with
  | error e => rw [State.processAccountLimitUpdates_error hs h]
  | ok t =>
    -- the three weights add up past the largest total
    have hview : viewTotal (Transition.run step State.initializeDatabase
        [.initializeAccount ⟨1⟩, .initializeAccount ⟨2⟩, .initializeAccount ⟨3⟩,
          .setAccountLimits ⟨1⟩ (-1) (-1) int64Max, .setAccountLimits ⟨2⟩ (-1) (-1) int64Max,
          .setAccountLimits ⟨3⟩ (-1) (-1) int64Max]) .cpuWeight = 3 * (2 ^ 63 - 1) := by
      decide
    have htot := State.processAccountLimitUpdates_total hs h .cpuWeight
    have hlt := (LimitField.cpuWeight.total t).toNat_lt
    omega


end ResourceLimits
end Safeos
