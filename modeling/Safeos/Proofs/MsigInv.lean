import Safeos.Msig
import Safeos.Proofs.TokenInv

/-!
# The multisig contract over whole runs

From the deployment, every run of the contract's actions keeps the two tables in step: they
have the same keys, and each row holds its own proposal name (`TablesInv`). So `propose` never
fails on the primary key of `approvals`, and `cancel` and `exec`, once they find the proposal,
find its approvals too (`msig_tables_agree`).

Between the proposal and its `cancel` or `exec`, `approve` and `unapprove` only move levels
between the requested and the provided approvals: none is lost and none is added
(`approvals_conserved`). And over the whole run (`History`): a proposal is open from its
proposer's `propose` until its `cancel` or `exec` (`Live`), every provided approval of it was
granted in that span by an `approve` that carried that very permission level
(`approvals_were_granted`), and every transaction `exec` sent is the one its proposer proposed,
accepted by `check_transaction_authorization` with approvals granted between that `propose` and
the `exec` (`sent_only_approved`).
-/

namespace Safeos
namespace Msig

open Token (getRow getRow_eq_ok errorsIn_getRow)
open Except (ErrorsIn errorsIn_pure errorsIn_of_eq_ok)

variable {s s' : State} {auths : List PermissionLevel} {now : UInt32}
  {checkAuth : List UInt8 → List PermissionLevel → Bool} {proposer proposalName : Name}

/-! ### What each action does -/

theorem emplace_eq_ok {ν : Type} {t t' : AList (fun _ : Name × Name => ν)} {k : Name × Name}
    {v : ν} : emplace t k v = .ok t' ↔ t.lookup k = none ∧ t.insert k v = t' := by
  simp [emplace, Option.isNone_iff_eq_none]

theorem propose_cases {requested : List PermissionLevel} {trx : List UInt8}
    (h : propose auths now checkAuth s proposer proposalName requested trx = .ok s') :
    proposer ∈ auths.map (·.actor) ∧ s.proposals.lookup (proposer, proposalName) = none ∧
      s.approvals.lookup (proposer, proposalName) = none ∧ checkAuth trx requested = true ∧
      s' = { s with
        proposals := s.proposals.insert (proposer, proposalName) ⟨proposalName, trx⟩
        approvals := s.approvals.insert (proposer, proposalName) ⟨proposalName, requested, []⟩ } := by
  simp only [propose, Token.requireAuth, Except.bind_eq_ok, eosioAssert_eq_ok, emplace_eq_ok,
    Except.pure_eq_ok] at h
  obtain ⟨-, -, -, hauth, -, -, -, hnone, -, hchk, -, ⟨-, rfl⟩, -, ⟨happ, rfl⟩, rfl⟩ := h
  exact ⟨by simpa using hauth, by simpa using hnone, happ, hchk, rfl⟩

theorem approve_cases {level : PermissionLevel}
    (h : approve auths s proposer proposalName level = .ok s') :
    level ∈ auths ∧ ∃ apps, s.approvals.lookup (proposer, proposalName) = some apps ∧
      level ∈ apps.requestedApprovals ∧
      s' = { s with approvals := (s.approvals.insert (proposer, proposalName)
        ⟨apps.proposalName, apps.requestedApprovals.erase level,
          apps.providedApprovals ++ [level]⟩) } := by
  simp only [approve, requireAuthLevel, Except.bind_eq_ok, eosioAssert_eq_ok, getRow_eq_ok,
    Except.pure_eq_ok] at h
  obtain ⟨-, hauth, apps, happs, -, hreq, rfl⟩ := h
  exact ⟨by simpa using hauth, apps, happs, by simpa using hreq, rfl⟩

theorem unapprove_cases {level : PermissionLevel}
    (h : unapprove auths s proposer proposalName level = .ok s') :
    level ∈ auths ∧ ∃ apps, s.approvals.lookup (proposer, proposalName) = some apps ∧
      level ∈ apps.providedApprovals ∧
      s' = { s with approvals := (s.approvals.insert (proposer, proposalName)
        ⟨apps.proposalName, apps.requestedApprovals ++ [level],
          apps.providedApprovals.erase level⟩) } := by
  simp only [unapprove, requireAuthLevel, Except.bind_eq_ok, eosioAssert_eq_ok, getRow_eq_ok,
    Except.pure_eq_ok] at h
  obtain ⟨-, hauth, apps, happs, -, hprov, rfl⟩ := h
  exact ⟨by simpa using hauth, apps, happs, by simpa using hprov, rfl⟩

theorem cancel_cases {canceler : Name}
    (h : cancel auths now s proposer proposalName canceler = .ok s') :
    (proposer, proposalName) ∈ s.proposals ∧ (proposer, proposalName) ∈ s.approvals ∧
      s' = { s with
        proposals := s.proposals.erase (proposer, proposalName)
        approvals := s.approvals.erase (proposer, proposalName) } := by
  unfold cancel at h
  obtain ⟨-, -, h⟩ := Except.bind_eq_ok.1 h
  obtain ⟨prop, hprop, h⟩ := Except.bind_eq_ok.1 h
  -- past the check of the expiration, which only another canceler meets
  have h' : (getRow s.approvals (proposer, proposalName) "proposal not found" >>= fun _ =>
      pure ({ s with
        proposals := s.proposals.erase (proposer, proposalName)
        approvals := s.approvals.erase (proposer, proposalName) } : State)) = .ok s' := by
    dsimp only at h
    split at h
    · obtain ⟨_, -, h⟩ := Except.bind_eq_ok.1 h
      obtain ⟨-, -, h⟩ := Except.bind_eq_ok.1 h
      exact h
    · exact h
  obtain ⟨apps, happs, h⟩ := Except.bind_eq_ok.1 h'
  rw [getRow_eq_ok] at hprop happs
  rw [Except.pure_eq_ok] at h
  subst h
  exact ⟨AList.lookup_isSome.1 (by rw [hprop]; rfl), AList.lookup_isSome.1 (by rw [happs]; rfl),
    rfl⟩

theorem exec_cases {executer : Name}
    (h : exec auths now checkAuth s proposer proposalName executer = .ok s') :
    ∃ prop apps, s.proposals.lookup (proposer, proposalName) = some prop ∧
      s.approvals.lookup (proposer, proposalName) = some apps ∧
      checkAuth prop.packedTransaction apps.providedApprovals = true ∧
      s' = { s with
        sent := s.sent ++
          [⟨senderIdOf proposer proposalName, executer, prop.packedTransaction⟩]
        proposals := s.proposals.erase (proposer, proposalName)
        approvals := s.approvals.erase (proposer, proposalName) } := by
  simp only [exec, Except.bind_eq_ok, eosioAssert_eq_ok, getRow_eq_ok, Except.pure_eq_ok] at h
  obtain ⟨-, -, prop, hprop, apps, happs, -, -, -, -, -, hchk, rfl⟩ := h
  exact ⟨prop, apps, hprop, happs, hchk, rfl⟩

/-! ### The errors of reading a header -/

theorem errorsIn_readBytes {n : Nat} {bytes : List UInt8} :
    ErrorsIn (· = "read") (readBytes n bytes) := by
  unfold readBytes
  exact (errorsIn_eosioAssert (by rfl)).bind fun _ _ => errorsIn_pure _

theorem errorsIn_readGroups {v shift : UInt32} {bytes : List UInt8} :
    ErrorsIn (· = "get") (Varint.readGroups v shift bytes) := by
  induction bytes generalizing v shift with
  | nil => exact Except.errorsIn_throw rfl
  | cons b rest ih =>
    unfold Varint.readGroups
    split
    · exact ih
    · exact errorsIn_pure _

theorem errorsIn_unpackTransactionHeader {bytes : List UInt8} :
    ErrorsIn (fun e => e = "read" ∨ e = "get") (unpackTransactionHeader bytes) := by
  unfold unpackTransactionHeader
  refine (errorsIn_readBytes.mono fun _ h => .inl h).bind fun ⟨_, bytes⟩ _ => ?_
  refine (errorsIn_readBytes.mono fun _ h => .inl h).bind fun ⟨_, bytes⟩ _ => ?_
  refine (errorsIn_readBytes.mono fun _ h => .inl h).bind fun ⟨_, bytes⟩ _ => ?_
  refine (errorsIn_readGroups.mono fun _ h => .inr h).bind fun ⟨_, bytes⟩ _ => ?_
  refine (errorsIn_readBytes.mono fun _ h => .inl h).bind fun ⟨_, bytes⟩ _ => ?_
  exact (errorsIn_readGroups.mono fun _ h => .inr h).bind fun _ _ => errorsIn_pure _

/-! ### The two tables agree -/

/-- The two tables have the same keys, and every row holds the proposal name of its key. -/
structure TablesInv (s : State) : Prop where
  sameKeys : ∀ k, k ∈ s.proposals ↔ k ∈ s.approvals
  proposalName : ∀ k p, s.proposals.lookup k = some p → p.proposalName = k.2
  approvalsName : ∀ k a, s.approvals.lookup k = some a → a.proposalName = k.2

theorem tablesInv_init : TablesInv State.init where
  sameKeys k := by simp [State.init]
  proposalName k p h := by simp [State.init] at h
  approvalsName k a h := by simp [State.init] at h

/-- `propose`: two new rows under one key. -/
theorem TablesInv.insert (h : TablesInv s) {k : Name × Name} {trx : List UInt8}
    {requested : List PermissionLevel} :
    TablesInv { s with
      proposals := s.proposals.insert k ⟨k.2, trx⟩
      approvals := s.approvals.insert k ⟨k.2, requested, []⟩ } where
  sameKeys k' := by simp [AList.mem_insert, h.sameKeys]
  proposalName k' p hp := by
    rcases AList.lookup_insert_cases hp with ⟨rfl, rfl⟩ | ⟨-, hp⟩
    · rfl
    · exact h.proposalName k' p hp
  approvalsName k' a ha := by
    rcases AList.lookup_insert_cases ha with ⟨rfl, rfl⟩ | ⟨-, ha⟩
    · rfl
    · exact h.approvalsName k' a ha

/-- `approve` and `unapprove`: the approvals row of a key rewritten, its name kept. -/
theorem TablesInv.modify (h : TablesInv s) {k : Name × Name} {apps : ApprovalsInfo}
    (ha : s.approvals.lookup k = some apps) (requested provided : List PermissionLevel) :
    TablesInv { s with
      approvals := s.approvals.insert k ⟨apps.proposalName, requested, provided⟩ } where
  sameKeys k' := by
    have hk : k ∈ s.approvals := AList.lookup_isSome.1 (by rw [ha]; rfl)
    simp only [AList.mem_insert, h.sameKeys]
    constructor
    · exact Or.inr
    · rintro (rfl | hk')
      · exact hk
      · exact hk'
  proposalName := h.proposalName
  approvalsName k' a ha' := by
    rcases AList.lookup_insert_cases ha' with ⟨rfl, rfl⟩ | ⟨-, ha'⟩
    · exact h.approvalsName k' apps ha
    · exact h.approvalsName k' a ha'

/-- `cancel` and `exec`: both rows of a key erased. -/
theorem TablesInv.erase (h : TablesInv s) (k : Name × Name) (sent : List DeferredSend) :
    TablesInv ⟨s.proposals.erase k, s.approvals.erase k, sent⟩ where
  sameKeys k' := by simp [AList.mem_erase, h.sameKeys]
  proposalName k' p hp := h.proposalName k' p (AList.lookup_of_lookup_erase hp).2
  approvalsName k' a ha := h.approvalsName k' a (AList.lookup_of_lookup_erase ha).2

theorem tablesInv_step : Transition.Preserves TablesInv step := by
  rintro s ⟨auths, now, checkAuth, act⟩ s' h hs
  cases act with
  | propose proposer proposalName requested trx =>
    obtain ⟨-, -, -, -, rfl⟩ := propose_cases hs
    exact h.insert (k := (proposer, proposalName))
  | approve proposer proposalName level =>
    obtain ⟨-, apps, ha, -, rfl⟩ := approve_cases hs
    exact h.modify ha _ _
  | unapprove proposer proposalName level =>
    obtain ⟨-, apps, ha, -, rfl⟩ := unapprove_cases hs
    exact h.modify ha _ _
  | cancel proposer proposalName canceler =>
    obtain ⟨-, -, rfl⟩ := cancel_cases hs
    exact h.erase _ _
  | exec proposer proposalName executer =>
    obtain ⟨-, -, -, -, -, rfl⟩ := exec_cases hs
    exact h.erase _ _

theorem tablesInv_run (reqs : List Request)
    (hrun : Transition.runAll step State.init reqs = .ok s) : TablesInv s :=
  tablesInv_step.runAll tablesInv_init hrun

/-- In a state where the tables agree, no action fails on a primary key in use: the only
`emplace`s are those of `propose`, after its check that the proposal is new. -/
theorem step_errorsIn (h : TablesInv s) (r : Request) :
    ErrorsIn (· ≠ uniquenessViolation) (step s r) := by
  have hheader : ∀ bytes, ErrorsIn (· ≠ uniquenessViolation) (unpackTransactionHeader bytes) :=
    fun _ => errorsIn_unpackTransactionHeader.mono fun e he => by
      rcases he with rfl | rfl <;> decide
  obtain ⟨auths, now, checkAuth, act⟩ := r
  cases act with
  | propose proposer proposalName requested trx =>
    refine (hheader trx).bind fun _ _ => ?_
    refine (errorsIn_eosioAssert (by decide)).bind fun _ _ => ?_
    refine (errorsIn_eosioAssert (by decide)).bind fun _ _ => ?_
    refine (errorsIn_eosioAssert (by decide)).bind fun _ hnew => ?_
    refine (errorsIn_eosioAssert (by decide)).bind fun _ _ => ?_
    -- the key is in neither table
    have hp : s.proposals.lookup (proposer, proposalName) = none := by
      simpa using eosioAssert_eq_ok.1 hnew
    have ha : s.approvals.lookup (proposer, proposalName) = none := by
      rw [AList.lookup_eq_none] at hp ⊢
      exact fun hk => hp ((h.sameKeys _).2 hk)
    refine (errorsIn_of_eq_ok (emplace_eq_ok.2 ⟨hp, rfl⟩)).bind fun _ _ => ?_
    exact (errorsIn_of_eq_ok (emplace_eq_ok.2 ⟨ha, rfl⟩)).bind fun _ _ => errorsIn_pure _
  | approve proposer proposalName level =>
    exact (errorsIn_eosioAssert (by decide)).bind fun _ _ => (errorsIn_getRow (by decide)).bind
      fun _ _ => (errorsIn_eosioAssert (by decide)).bind fun _ _ => errorsIn_pure _
  | unapprove proposer proposalName level =>
    exact (errorsIn_eosioAssert (by decide)).bind fun _ _ => (errorsIn_getRow (by decide)).bind
      fun _ _ => (errorsIn_eosioAssert (by decide)).bind fun _ _ => errorsIn_pure _
  | cancel proposer proposalName canceler =>
    refine (errorsIn_eosioAssert (by decide)).bind fun _ _ => ?_
    refine (errorsIn_getRow (by decide)).bind fun prop _ => ?_
    dsimp only
    split
    · refine (hheader _).bind fun _ _ => (errorsIn_eosioAssert (by decide)).bind fun _ _ => ?_
      exact (errorsIn_getRow (by decide)).bind fun _ _ => errorsIn_pure _
    · exact (errorsIn_getRow (by decide)).bind fun _ _ => errorsIn_pure _
  | exec proposer proposalName executer =>
    refine (errorsIn_eosioAssert (by decide)).bind fun _ _ => ?_
    refine (errorsIn_getRow (by decide)).bind fun _ _ => ?_
    refine (errorsIn_getRow (by decide)).bind fun _ _ => ?_
    refine (hheader _).bind fun _ _ => ?_
    refine (errorsIn_eosioAssert (by decide)).bind fun _ _ => ?_
    exact (errorsIn_eosioAssert (by decide)).bind fun _ _ => errorsIn_pure _


/-- On every run from the deployment, the two tables have the same keys and each row holds the
proposal name of its key; and no action then fails on a primary key in use. -/
theorem msig_tables_agree (reqs : List Request)
    (hrun : Transition.runAll step State.init reqs = .ok s) :
    (∀ k, k ∈ s.proposals ↔ k ∈ s.approvals) ∧
      (∀ k p, s.proposals.lookup k = some p → p.proposalName = k.2) ∧
      (∀ k a, s.approvals.lookup k = some a → a.proposalName = k.2) ∧
      ∀ r, step s r ≠ .error uniquenessViolation := by
  have h := tablesInv_run reqs hrun
  exact ⟨h.sameKeys, h.proposalName, h.approvalsName,
    fun r hr => step_errorsIn h r uniquenessViolation hr rfl⟩

/-- The bytes of a transaction header that expires at second 100. -/
def sampleTrx : List UInt8 := [100, 0, 0, 0, 0, 0, 0, 0, 0, 0, 0, 0, 0]

/-- The level whose approval the sample proposal requests. -/
def approver : PermissionLevel := ⟨⟨3⟩, ⟨4⟩⟩

/-- Account 1 proposes `sampleTrx` under name 2, at second 50. -/
def proposeReq : Request := ⟨[⟨⟨1⟩, ⟨5⟩⟩], 50, fun _ _ => true, .propose ⟨1⟩ ⟨2⟩ [approver] sampleTrx⟩

/-- `approver` approves it. -/
def approveReq : Request := ⟨[approver], 50, fun _ _ => true, .approve ⟨1⟩ ⟨2⟩ approver⟩

/-- Account 6 executes it at second 60. -/
def execReq : Request := ⟨[⟨⟨6⟩, ⟨5⟩⟩], 60, fun _ _ => true, .exec ⟨1⟩ ⟨2⟩ ⟨6⟩⟩

/-- The tables after `proposeReq`. -/
def proposedState : State :=
  ⟨(∅ : AList fun _ : Name × Name => Proposal).insert (⟨1⟩, ⟨2⟩) ⟨⟨2⟩, sampleTrx⟩,
    (∅ : AList fun _ : Name × Name => ApprovalsInfo).insert (⟨1⟩, ⟨2⟩) ⟨⟨2⟩, [approver], []⟩, []⟩

/-- The tables after `approveReq`. -/
def approvedState : State :=
  ⟨(∅ : AList fun _ : Name × Name => Proposal).insert (⟨1⟩, ⟨2⟩) ⟨⟨2⟩, sampleTrx⟩,
    (∅ : AList fun _ : Name × Name => ApprovalsInfo).insert (⟨1⟩, ⟨2⟩) ⟨⟨2⟩, [], [approver]⟩, []⟩

/-- The tables after `execReq`: empty, and the transaction sent. -/
def executedState : State := ⟨∅, ∅, [⟨senderIdOf ⟨1⟩ ⟨2⟩, ⟨6⟩, sampleTrx⟩]⟩

theorem runAll_proposed :
    Transition.runAll step State.init [proposeReq] = .ok proposedState := rfl

theorem runAll_approved :
    Transition.runAll step proposedState [approveReq] = .ok approvedState := rfl

theorem runAll_executed :
    Transition.runAll step State.init [proposeReq, approveReq, execReq] = .ok executedState := rfl

theorem msig_tables_agree_approved :
    Transition.runAll step State.init [proposeReq, approveReq] = .ok approvedState ∧
      ((∀ k, k ∈ approvedState.proposals ↔ k ∈ approvedState.approvals) ∧
      (∀ k p, approvedState.proposals.lookup k = some p → p.proposalName = k.2) ∧
      (∀ k a, approvedState.approvals.lookup k = some a → a.proposalName = k.2) ∧
      ∀ r, step approvedState r ≠ .error uniquenessViolation) := by
  have hrun : Transition.runAll step State.init [proposeReq, approveReq] = .ok approvedState :=
    rfl
  exact ⟨hrun, msig_tables_agree _ hrun⟩

/-! ### No approval lost or added -/

/-- The actions that end proposal `k`: its `cancel` and its `exec`. -/
def Action.Removes (k : Name × Name) : Action → Prop
  | .cancel proposer proposalName _ => (proposer, proposalName) = k
  | .exec proposer proposalName _ => (proposer, proposalName) = k
  | _ => False

section Conserved

variable {α : Type*} [DecidableEq α] {l : α} {requested provided : List α}

/-- `approve` moves one entry from the first list to the end of the second. -/
theorem perm_approve (hl : l ∈ requested) :
    (requested.erase l ++ (provided ++ [l])).Perm (requested ++ provided) := by
  have hend : (requested.erase l ++ (provided ++ [l])).Perm (l :: (requested.erase l ++ provided)) := by
    rw [← List.append_assoc]
    exact List.perm_append_singleton _ _
  exact hend.trans ((List.perm_cons_erase hl).symm.append_right provided)

/-- `unapprove` moves one entry from the second list to the end of the first. -/
theorem perm_unapprove (hl : l ∈ provided) :
    ((requested ++ [l]) ++ provided.erase l).Perm (requested ++ provided) := by
  rw [List.append_assoc, List.singleton_append]
  exact (List.perm_cons_erase hl).symm.append_left _

end Conserved

/-- The approvals row of `k` holds, between its two lists, the entries of `L`. -/
def Holds (k : Name × Name) (L : List PermissionLevel) (s : State) : Prop :=
  TablesInv s ∧ ∃ a, s.approvals.lookup k = some a ∧
    (a.requestedApprovals ++ a.providedApprovals).Perm L

theorem holds_step (k : Name × Name) (L : List PermissionLevel) :
    Transition.PreservesUnder (fun _ r => ¬ r.act.Removes k) (Holds k L) step := by
  rintro s ⟨auths, now, checkAuth, act⟩ s' hkeep ⟨h, a, ha, hperm⟩ hs
  refine ⟨tablesInv_step s _ s' h hs, ?_⟩
  cases act with
  | propose proposer proposalName requested trx =>
    obtain ⟨-, -, hnew, -, rfl⟩ := propose_cases hs
    -- `k` has a row, so the new one is of another key
    have hne : k ≠ (proposer, proposalName) := by
      rintro rfl
      rw [hnew] at ha
      cases ha
    exact ⟨a, by simp [AList.lookup_insert_ne hne, ha], hperm⟩
  | approve proposer proposalName level =>
    obtain ⟨-, apps, happs, hl, rfl⟩ := approve_cases hs
    by_cases hk : k = (proposer, proposalName)
    · subst hk
      rw [happs] at ha
      cases ha
      exact ⟨_, AList.lookup_insert _, (perm_approve hl).trans hperm⟩
    · exact ⟨a, by simp [AList.lookup_insert_ne hk, ha], hperm⟩
  | unapprove proposer proposalName level =>
    obtain ⟨-, apps, happs, hl, rfl⟩ := unapprove_cases hs
    by_cases hk : k = (proposer, proposalName)
    · subst hk
      rw [happs] at ha
      cases ha
      exact ⟨_, AList.lookup_insert _, (perm_unapprove hl).trans hperm⟩
    · exact ⟨a, by simp [AList.lookup_insert_ne hk, ha], hperm⟩
  | cancel proposer proposalName canceler =>
    obtain ⟨-, -, rfl⟩ := cancel_cases hs
    have hk : k ≠ (proposer, proposalName) := fun hk => hkeep hk.symm
    exact ⟨a, by simp [AList.lookup_erase_ne hk, ha], hperm⟩
  | exec proposer proposalName executer =>
    obtain ⟨-, -, -, -, -, rfl⟩ := exec_cases hs
    have hk : k ≠ (proposer, proposalName) := fun hk => hkeep hk.symm
    exact ⟨a, by simp [AList.lookup_erase_ne hk, ha], hperm⟩

/-- From a state reached from the deployment, as long as a proposal is neither cancelled nor
executed, its approvals row stays, and `approve` and `unapprove` only move entries between its
requested and its provided approvals: none is lost, none is duplicated. -/
theorem approvals_conserved (pre reqs : List Request) {t : State}
    (hpre : Transition.runAll step State.init pre = .ok s)
    (hrun : Transition.runAll step s reqs = .ok t) {k : Name × Name} {a : ApprovalsInfo}
    (ha : s.approvals.lookup k = some a) (hkeep : ∀ r ∈ reqs, ¬ r.act.Removes k) :
    ∃ a', t.approvals.lookup k = some a' ∧
      (a'.requestedApprovals ++ a'.providedApprovals).Perm
        (a.requestedApprovals ++ a.providedApprovals) :=
  ((holds_step k _).runAll ⟨tablesInv_run pre hpre, a, ha, List.Perm.refl _⟩ hkeep hrun).2

theorem approvals_conserved_approve :
    Transition.runAll step State.init [proposeReq] = .ok proposedState ∧
      Transition.runAll step proposedState [approveReq] = .ok approvedState ∧
      proposedState.approvals.lookup (⟨1⟩, ⟨2⟩) = some ⟨⟨2⟩, [approver], []⟩ ∧
      (∀ r ∈ [approveReq], ¬ r.act.Removes (⟨1⟩, ⟨2⟩)) ∧
      ∃ a', approvedState.approvals.lookup (⟨1⟩, ⟨2⟩) = some a' ∧
        (a'.requestedApprovals ++ a'.providedApprovals).Perm ([approver] ++ []) := by
  have ha : proposedState.approvals.lookup (⟨1⟩, ⟨2⟩) = some ⟨⟨2⟩, [approver], []⟩ := rfl
  have hkeep : ∀ r ∈ [approveReq], ¬ r.act.Removes (⟨1⟩, ⟨2⟩) := by
    intro r hr
    rw [List.mem_singleton.1 hr]
    exact id
  exact ⟨runAll_proposed, runAll_approved, ha, hkeep,
    approvals_conserved [proposeReq] [approveReq] runAll_proposed runAll_approved ha hkeep⟩

/-! ### What the run did -/

/-- The actions that close proposal `k` or open a new one under its key: its `cancel` and
`exec`, and a `propose` of `k`. -/
def Action.Ends (k : Name × Name) (act : Action) : Prop :=
  act.Removes k ∨ ∃ requested trx, act = .propose k.1 k.2 requested trx

/-- Proposal `k` of `trx` is still open after the actions `H`: they end with its proposer's
`propose` of `k` with `trx`, and then the actions `H₂`, none of which ends `k`. -/
def Live (H : List Request) (k : Name × Name) (trx : List UInt8) (H₂ : List Request) : Prop :=
  ∃ H₁ r, H = H₁ ++ r :: H₂ ∧ (∃ requested, r.act = .propose k.1 k.2 requested trx) ∧
    k.1 ∈ r.auths.map (·.actor) ∧ ∀ r' ∈ H₂, ¬ r'.act.Ends k

/-- One of the actions `H` approved `k` by `l`, with `l` among its authorizations. -/
def Granted (H : List Request) (k : Name × Name) (l : PermissionLevel) : Prop :=
  ∃ r ∈ H, r.act = .approve k.1 k.2 l ∧ l ∈ r.auths

/-- One of the actions `H` is an `exec` of `k` by `payer`, made while proposal `k` of `trx` was
open, whose `check_transaction_authorization` accepted `trx` with approvals that were each
granted between the proposal and the `exec`. -/
def Executed (H : List Request) (k : Name × Name) (payer : Name) (trx : List UInt8) : Prop :=
  ∃ H₀ r H₃ H₂, H = H₀ ++ r :: H₃ ∧ Live H₀ k trx H₂ ∧ r.act = .exec k.1 k.2 payer ∧
    ∃ levels, r.checkAuth trx levels = true ∧ ∀ l ∈ levels, Granted H₂ k l

section History

variable {H H₂ : List Request} {k : Name × Name}

@[simp] theorem ends_propose {requested : List PermissionLevel} {trx : List UInt8} :
    (Action.propose proposer proposalName requested trx).Ends k ↔ (proposer, proposalName) = k := by
  obtain ⟨p, n⟩ := k
  simp [Action.Ends, Action.Removes]

@[simp] theorem not_ends_approve {level : PermissionLevel} :
    ¬ (Action.approve proposer proposalName level).Ends k := by
  simp [Action.Ends, Action.Removes]

@[simp] theorem not_ends_unapprove {level : PermissionLevel} :
    ¬ (Action.unapprove proposer proposalName level).Ends k := by
  simp [Action.Ends, Action.Removes]

@[simp] theorem ends_cancel {canceler : Name} :
    (Action.cancel proposer proposalName canceler).Ends k ↔ (proposer, proposalName) = k := by
  simp [Action.Ends, Action.Removes]

@[simp] theorem ends_exec {executer : Name} :
    (Action.exec proposer proposalName executer).Ends k ↔ (proposer, proposalName) = k := by
  simp [Action.Ends, Action.Removes]

theorem Live.snoc {trx : List UInt8} (h : Live H k trx H₂) {r : Request} (hr : ¬ r.act.Ends k) :
    Live (H ++ [r]) k trx (H₂ ++ [r]) := by
  obtain ⟨H₁, rp, rfl, hprop, hauth, hnot⟩ := h
  refine ⟨H₁, rp, by simp, hprop, hauth, fun r' hr' => ?_⟩
  rcases List.mem_append.1 hr' with hr' | hr'
  · exact hnot r' hr'
  · rw [List.mem_singleton.1 hr']
    exact hr

theorem Granted.snoc {l : PermissionLevel} (h : Granted H k l) (r : Request) :
    Granted (H ++ [r]) k l :=
  let ⟨r', hr', hact, hauth⟩ := h
  ⟨r', List.mem_append_left _ hr', hact, hauth⟩

theorem Executed.snoc {payer : Name} {trx : List UInt8} (h : Executed H k payer trx)
    (r : Request) : Executed (H ++ [r]) k payer trx := by
  obtain ⟨H₀, re, H₃, H₂, rfl, hlive, hact, hchk⟩ := h
  exact ⟨H₀, re, H₃ ++ [r], H₂, by simp, hlive, hact, hchk⟩

/-- What the state owes to the actions `H` that reached it: each proposal it holds is open since
its `propose`, and each provided approval of it was granted since then; each transaction it sent
was executed. -/
structure History (s : State) (H : List Request) : Prop where
  live : ∀ k p, s.proposals.lookup k = some p → ∃ H₂, Live H k p.packedTransaction H₂ ∧
    ∀ a, s.approvals.lookup k = some a → ∀ l ∈ a.providedApprovals, Granted H₂ k l
  sent : ∀ d ∈ s.sent, ∃ k, d.senderId = senderIdOf k.1 k.2 ∧
    Executed H k d.payer d.packedTransaction

theorem history_init : History State.init [] where
  live k p hp := by simp [State.init] at hp
  sent d hd := by simp [State.init] at hd

/-- An action that does not end proposal `k`, and leaves its approvals row as it was or without
it, keeps what `k` owes. -/
theorem History.live_snoc (h : History s H) {r : Request} {k : Name × Name} {p : Proposal}
    (hp : s.proposals.lookup k = some p) (hr : ¬ r.act.Ends k)
    {approvals : AList (fun _ : Name × Name => ApprovalsInfo)}
    (happs : ∀ a, approvals.lookup k = some a → s.approvals.lookup k = some a) :
    ∃ H₂, Live (H ++ [r]) k p.packedTransaction H₂ ∧
      ∀ a, approvals.lookup k = some a → ∀ l ∈ a.providedApprovals, Granted H₂ k l := by
  obtain ⟨H₂, hlive, hgranted⟩ := h.live k p hp
  exact ⟨H₂ ++ [r], hlive.snoc hr, fun a ha l hl => (hgranted a (happs a ha) l hl).snoc r⟩

/-- An action that ends only proposal `k₀`, and erases both its rows, keeps what every other
proposal owes. -/
theorem History.live_erase (h : History s H) {r : Request} {k₀ : Name × Name}
    (hends : ∀ k, r.act.Ends k → k = k₀) {k : Name × Name} {p : Proposal}
    (hp : (s.proposals.erase k₀).lookup k = some p) :
    ∃ H₂, Live (H ++ [r]) k p.packedTransaction H₂ ∧
      ∀ a, (s.approvals.erase k₀).lookup k = some a →
        ∀ l ∈ a.providedApprovals, Granted H₂ k l := by
  obtain ⟨hne, hp⟩ := AList.lookup_of_lookup_erase hp
  exact h.live_snoc hp (fun he => hne (hends k he)) fun a ha => (AList.lookup_of_lookup_erase ha).2

theorem history_step (s : State) (H : List Request) (r : Request) (s' : State)
    (h : History s H) (hs : step s r = .ok s') : History s' (H ++ [r]) := by
  have hsent : ∀ d ∈ s.sent, ∃ k, d.senderId = senderIdOf k.1 k.2 ∧
      Executed (H ++ [r]) k d.payer d.packedTransaction := fun d hd =>
    let ⟨k, hid, hexec⟩ := h.sent d hd
    ⟨k, hid, hexec.snoc r⟩
  obtain ⟨auths, now, checkAuth, act⟩ := r
  cases act with
  | propose proposer proposalName requested trx =>
    obtain ⟨hauth, -, -, -, rfl⟩ := propose_cases hs
    refine ⟨fun k p hp => ?_, hsent⟩
    rcases AList.lookup_insert_cases hp with ⟨rfl, rfl⟩ | ⟨hne, hp⟩
    · -- the new proposal, open since this action, with no approval yet
      refine ⟨[], ⟨H, _, by simp, ⟨requested, rfl⟩, hauth, by simp⟩, fun a ha l hl => ?_⟩
      simp only [AList.lookup_insert, Option.some.injEq] at ha
      simp [← ha] at hl
    · exact h.live_snoc hp (by simpa using Ne.symm hne)
        fun a ha => by simpa [AList.lookup_insert_ne hne] using ha
  | approve proposer proposalName level =>
    obtain ⟨hauth, apps, happs, -, rfl⟩ := approve_cases hs
    refine ⟨fun k p hp => ?_, hsent⟩
    obtain ⟨H₂, hlive, hgranted⟩ := h.live k p hp
    refine ⟨H₂ ++ [_], hlive.snoc not_ends_approve, fun a ha l hl => ?_⟩
    rcases AList.lookup_insert_cases ha with ⟨rfl, rfl⟩ | ⟨-, ha⟩
    · -- the level `approve` added was granted by this very action
      rcases List.mem_append.1 hl with hl | hl
      · exact (hgranted apps happs l hl).snoc _
      · rw [List.mem_singleton.1 hl]
        exact ⟨_, List.mem_append_right _ (List.mem_singleton_self _), rfl, hauth⟩
    · exact (hgranted a ha l hl).snoc _
  | unapprove proposer proposalName level =>
    obtain ⟨-, apps, happs, -, rfl⟩ := unapprove_cases hs
    refine ⟨fun k p hp => ?_, hsent⟩
    obtain ⟨H₂, hlive, hgranted⟩ := h.live k p hp
    refine ⟨H₂ ++ [_], hlive.snoc not_ends_unapprove, fun a ha l hl => ?_⟩
    rcases AList.lookup_insert_cases ha with ⟨rfl, rfl⟩ | ⟨-, ha⟩
    · exact (hgranted apps happs l (List.erase_subset hl)).snoc _
    · exact (hgranted a ha l hl).snoc _
  | cancel proposer proposalName canceler =>
    obtain ⟨-, -, rfl⟩ := cancel_cases hs
    exact ⟨fun k p hp => h.live_erase (fun k he => (ends_cancel.1 he).symm) hp, hsent⟩
  | exec proposer proposalName executer =>
    obtain ⟨prop, apps, hprop, happs, hchk, rfl⟩ := exec_cases hs
    refine ⟨fun k p hp => h.live_erase (fun k he => (ends_exec.1 he).symm) hp, fun d hd => ?_⟩
    rcases List.mem_append.1 hd with hd | hd
    · exact hsent d hd
    · -- the transaction this action sent, of the proposal open until now
      rw [List.mem_singleton.1 hd]
      obtain ⟨H₂, hlive, hgranted⟩ := h.live _ prop hprop
      exact ⟨(proposer, proposalName), rfl, H, _, [], H₂, rfl, hlive, rfl,
        apps.providedApprovals, hchk, hgranted apps happs⟩

theorem history_run (reqs : List Request)
    (hrun : Transition.runAll step State.init reqs = .ok s) : History s reqs := by
  simpa using Transition.runAll_history history_step history_init hrun

end History

/-- On every run from the deployment, each provided approval of an open proposal was granted by
an `approve` of that proposal carrying that very permission level, made after the proposer's
`propose` that opened it, with no `cancel`, `exec` or new `propose` of its key since. -/
theorem approvals_were_granted (reqs : List Request)
    (hrun : Transition.runAll step State.init reqs = .ok s) {k : Name × Name}
    {a : ApprovalsInfo} (ha : s.approvals.lookup k = some a) :
    ∃ trx H₂, Live reqs k trx H₂ ∧ ∀ l ∈ a.providedApprovals, Granted H₂ k l := by
  -- the proposal row stands beside the approvals row
  have hk : k ∈ s.proposals :=
    ((tablesInv_run reqs hrun).sameKeys k).2 (AList.lookup_isSome.1 (by simp [ha]))
  obtain ⟨p, hp⟩ := Option.isSome_iff_exists.1 (AList.lookup_isSome.2 hk)
  obtain ⟨H₂, hlive, hgranted⟩ := (history_run reqs hrun).live k p hp
  exact ⟨p.packedTransaction, H₂, hlive, hgranted a ha⟩

theorem approvals_were_granted_approve :
    Transition.runAll step State.init [proposeReq, approveReq] = .ok approvedState ∧
      approvedState.approvals.lookup (⟨1⟩, ⟨2⟩) = some ⟨⟨2⟩, [], [approver]⟩ ∧
      ∃ trx H₂, Live [proposeReq, approveReq] (⟨1⟩, ⟨2⟩) trx H₂ ∧
        ∀ l ∈ [approver], Granted H₂ (⟨1⟩, ⟨2⟩) l := by
  have hrun : Transition.runAll step State.init [proposeReq, approveReq] = .ok approvedState :=
    rfl
  have ha : approvedState.approvals.lookup (⟨1⟩, ⟨2⟩) = some ⟨⟨2⟩, [], [approver]⟩ := rfl
  exact ⟨hrun, ha, approvals_were_granted _ hrun ha⟩

/-- On every run from the deployment, every transaction the contract sent was sent, paid by the
executer, by an `exec` of a proposal that was open at the time, after the proposer's `propose` of
that very transaction, and `check_transaction_authorization` of its time accepted it with
approvals that were each granted by an `approve` of the proposal, carrying that permission level,
between the `propose` and the `exec`. -/
theorem sent_only_approved (reqs : List Request)
    (hrun : Transition.runAll step State.init reqs = .ok s) :
    ∀ d ∈ s.sent, ∃ proposer proposalName, d.senderId = senderIdOf proposer proposalName ∧
      Executed reqs (proposer, proposalName) d.payer d.packedTransaction := by
  intro d hd
  obtain ⟨⟨proposer, proposalName⟩, hid, hexec⟩ := (history_run reqs hrun).sent d hd
  exact ⟨proposer, proposalName, hid, hexec⟩

theorem sent_only_approved_exec :
    Transition.runAll step State.init [proposeReq, approveReq, execReq] = .ok executedState ∧
      ∀ d ∈ executedState.sent, ∃ proposer proposalName,
        d.senderId = senderIdOf proposer proposalName ∧
        Executed [proposeReq, approveReq, execReq] (proposer, proposalName) d.payer
          d.packedTransaction :=
  ⟨runAll_executed, sent_only_approved _ runAll_executed⟩

end Msig
end Safeos
