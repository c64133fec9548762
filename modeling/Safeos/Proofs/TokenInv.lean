import Safeos.Token

/-!
# Token conservation

`Token.Inv`: for every symbol name with a `stat` row, the supply is the sum of the balances
stored under that name, lies between zero and the maximum supply, and every balance row is
positive and carries the supply's symbol; no balance row exists without a `stat` row.

Every balance change of the contract and of the native helpers has one of two shapes: `SubAt`
(a row loses `a`, and is erased when it reaches exactly zero) and `AddAt` (a row gains, or is
created). The contract's `sub_balance`/`add_balance` and the native ones both produce these
shapes (`subBalance_subAt`, `nativeSubBalance_subAt`, ...), so the sum and row lemmas are proved
once for the shapes, and a transfer of either kind is `Inv.move`.
-/

namespace Safeos
namespace Token

/-- The balances stored under symbol name `sym`, summed over owners. -/
def balanceSum (s : State) (sym : UInt64) : Int :=
  s.accounts.sum fun k b => if k.2 = sym then b.amount else 0

/-- The balance stored under `k` (zero without a row). -/
def balance (s : State) (k : Name × UInt64) : Int := (s.accounts.lookup k).elim 0 fun b => b.amount

/-- The conservation invariant of the token tables. -/
structure Inv (s : State) : Prop where
  key : ∀ sym st, s.stat.lookup sym = some st → st.supply.symbol.name = sym
  maxSymbol : ∀ sym st, s.stat.lookup sym = some st → st.maxSupply.symbol = st.supply.symbol
  maxLe : ∀ sym st, s.stat.lookup sym = some st → st.maxSupply.amount ≤ Asset.maxAmount
  supply : ∀ sym st, s.stat.lookup sym = some st → st.supply.amount = balanceSum s sym
  supplyNonneg : ∀ sym st, s.stat.lookup sym = some st → 0 ≤ st.supply.amount
  supplyLe : ∀ sym st, s.stat.lookup sym = some st → st.supply.amount ≤ st.maxSupply.amount
  balancePos : ∀ k b, s.accounts.lookup k = some b → 0 < b.amount
  balanceStat : ∀ k b, s.accounts.lookup k = some b →
    ∃ st, s.stat.lookup k.2 = some st ∧ b.symbol = st.supply.symbol

theorem getRow_eq_ok {κ ν : Type} [DecidableEq κ] {t : AList (fun _ : κ => ν)} {k : κ} {msg : String}
    {v : ν} : getRow t k msg = .ok v ↔ t.lookup k = some v := by
  unfold getRow
  cases t.lookup k <;> simp [pure, Except.pure, eq_comm]

/-! ## The two shapes of a balance change -/

/-- The row under `k` loses `a`: erased at exactly zero, else rewritten with the raw
`int64_t` difference. -/
def SubAt (s s' : State) (k : Name × UInt64) (a : Int) : Prop :=
  s'.stat = s.stat ∧ ∃ b, s.accounts.lookup k = some b ∧ a ≤ b.amount ∧
    ((b.amount = a ∧ s'.accounts = s.accounts.erase k) ∨
      (b.amount ≠ a ∧ s'.accounts = s.accounts.insert k { b with amount := int64 (b.amount - a) }))

/-- The row under `k` gains `v`: created as `v`, or rewritten with the raw `int64_t` sum and its
stored symbol. -/
def AddAt (s s' : State) (k : Name × UInt64) (v : Asset) : Prop :=
  s'.stat = s.stat ∧
    ((s.accounts.lookup k = none ∧ s'.accounts = s.accounts.insert k v) ∨
      ∃ b, s.accounts.lookup k = some b ∧
        s'.accounts = s.accounts.insert k { b with amount := int64 (b.amount + v.amount) })

theorem subBalance_subAt {s s' : State} {o : Name} {v : Asset} (h : subBalance s o v = .ok s') :
    SubAt s s' (o, v.symbol.name) v.amount := by
  simp only [subBalance, Except.bind_eq_ok, getRow_eq_ok, eosioAssert_eq_ok, decide_eq_true_eq] at h
  obtain ⟨b, hb, -, hle, h⟩ := h
  refine ⟨?_, b, hb, hle, ?_⟩ <;> split at h
  · simp only [Except.pure_eq_ok] at h; subst h; rfl
  · obtain ⟨c, -, h⟩ := Except.bind_eq_ok.1 h
    simp only [Except.pure_eq_ok] at h; subst h; rfl
  · simp only [Except.pure_eq_ok] at h; subst h
    exact .inl ⟨by assumption, rfl⟩
  · obtain ⟨c, hc, h⟩ := Except.bind_eq_ok.1 h
    simp only [Except.pure_eq_ok] at h; subst h
    obtain ⟨-, -, -, rfl⟩ := Asset.subAssign_eq_ok.1 hc
    exact .inr ⟨by assumption, rfl⟩

theorem addBalance_addAt {s s' : State} {o : Name} {v : Asset} (h : addBalance s o v = .ok s') :
    AddAt s s' (o, v.symbol.name) v ∧
      ∀ b, s.accounts.lookup (o, v.symbol.name) = some b → v.symbol = b.symbol := by
  unfold addBalance at h
  split at h
  · simp only [Except.pure_eq_ok] at h; subst h
    exact ⟨⟨rfl, .inl ⟨by assumption, rfl⟩⟩, by simp_all⟩
  · obtain ⟨c, hc, h⟩ := Except.bind_eq_ok.1 h
    simp only [Except.pure_eq_ok] at h; subst h
    obtain ⟨hsym, -, -, rfl⟩ := Asset.addAssign_eq_ok.1 hc
    refine ⟨⟨rfl, .inr ⟨_, by assumption, rfl⟩⟩, fun b hb => ?_⟩
    simp_all

theorem nativeSubBalance_subAt {s s' : State} {o : Name} {a : Int} {sym : UInt64}
    (h : nativeSubBalance s o a sym = .ok s') : SubAt s s' (o, sym >>> 8) a := by
  simp only [nativeSubBalance, Except.bind_eq_ok, getRow_eq_ok, eosioAssert_eq_ok,
    decide_eq_true_eq] at h
  obtain ⟨-, -, b, hb, -, hle, h⟩ := h
  refine ⟨?_, b, hb, hle, ?_⟩ <;> split at h <;> simp only [Except.pure_eq_ok] at h <;> subst h
  · rfl
  · rfl
  · exact .inl ⟨by assumption, rfl⟩
  · exact .inr ⟨by assumption, rfl⟩

theorem nativeAddBalance_addAt {s s' : State} {o : Name} {a : Int} {sym : UInt64}
    (h : nativeAddBalance s o a sym = .ok s') : AddAt s s' (o, sym >>> 8) ⟨a, ⟨sym⟩⟩ := by
  simp only [nativeAddBalance, Except.bind_eq_ok] at h
  obtain ⟨-, -, h⟩ := h
  split at h <;> simp only [Except.pure_eq_ok] at h <;> subst h
  · exact ⟨rfl, .inl ⟨by assumption, rfl⟩⟩
  · exact ⟨rfl, .inr ⟨_, by assumption, rfl⟩⟩

/-! ## Sums and rows after a change -/

theorem int64_sub_of_le {a b : Int} (ha : 0 ≤ a) (hab : a ≤ b) (hb : b ≤ Asset.maxAmount) :
    int64 (b - a) = b - a := by
  unfold Asset.maxAmount at hb
  exact int64_of_lt (by omega) (by omega)

namespace SubAt
variable {s s' : State} {k : Name × UInt64} {a : Int}

/-- A row keeps its symbol and only shrinks; the shrunk row stays positive. -/
theorem rows (h : SubAt s s' k a) (ha : 0 ≤ a) (hmax : ∀ b, s.accounts.lookup k = some b → b.amount ≤ Asset.maxAmount)
    {k' : Name × UInt64} {b' : Asset} (hb' : s'.accounts.lookup k' = some b') :
    ∃ b, s.accounts.lookup k' = some b ∧ b'.symbol = b.symbol ∧ b'.amount ≤ b.amount ∧
      (b'.amount = b.amount ∨ 0 < b'.amount) := by
  obtain ⟨-, b, hb, hle, ⟨-, hacc⟩ | ⟨hne, hacc⟩⟩ := h <;> rw [hacc] at hb'
  · obtain ⟨-, h⟩ := AList.lookup_of_lookup_erase hb'
    exact ⟨b', h, rfl, le_rfl, .inl rfl⟩
  · rcases AList.lookup_insert_cases hb' with ⟨rfl, rfl⟩ | ⟨-, h⟩
    · have hw := int64_sub_of_le ha hle (hmax b hb)
      refine ⟨b, hb, rfl, ?_, .inr ?_⟩ <;> simp only [hw] <;> omega
    · exact ⟨b', h, rfl, le_rfl, .inl rfl⟩

/-- The sum under `k.2` loses `a`, the others are unchanged. -/
theorem balanceSum (h : SubAt s s' k a) (ha : 0 ≤ a)
    (hmax : ∀ b, s.accounts.lookup k = some b → b.amount ≤ Asset.maxAmount) (sym : UInt64) :
    Token.balanceSum s' sym + (if k.2 = sym then a else 0) = Token.balanceSum s sym := by
  obtain ⟨-, b, hb, hle, ⟨heq, hacc⟩ | ⟨-, hacc⟩⟩ := h <;> simp only [Token.balanceSum, hacc]
  · rw [← AList.sum_erase_of_lookup _ hb, heq]
  · have hw := int64_sub_of_le ha hle (hmax b hb)
    have := AList.sum_insert_of_lookup (fun k b => if k.2 = sym then b.amount else 0)
      { b with amount := int64 (b.amount - a) } hb
    simp only [hw] at this ⊢
    split_ifs at this ⊢ <;> omega

/-- As a change of one row's amount: it falls by `a`. -/
theorem shift (h : SubAt s s' k a) (ha : 0 ≤ a)
    (hmax : ∀ b, s.accounts.lookup k = some b → b.amount ≤ Asset.maxAmount) :
    AList.Shift (fun _ b => b.amount) s.accounts s'.accounts k (-a) := by
  obtain ⟨-, b, hb, hle, ⟨heq, hacc⟩ | ⟨-, hacc⟩⟩ := h <;> rw [hacc]
  · exact AList.shift_erase (by simp [hb, heq])
  · refine AList.shift_insert ?_
    simp only [hb, Option.elim, int64_sub_of_le ha hle (hmax b hb)]
    omega

end SubAt

namespace AddAt
variable {s s' : State} {k : Name × UInt64} {v : Asset}

theorem rows (h : AddAt s s' k v) {k' : Name × UInt64} {b' : Asset}
    (hb' : s'.accounts.lookup k' = some b') :
    (k' ≠ k ∧ s.accounts.lookup k' = some b') ∨
      (k' = k ∧ ((s.accounts.lookup k = none ∧ b' = v) ∨
        ∃ b, s.accounts.lookup k = some b ∧ b' = { b with amount := int64 (b.amount + v.amount) })) := by
  obtain ⟨-, ⟨hnone, hacc⟩ | ⟨b, hb, hacc⟩⟩ := h <;> rw [hacc] at hb' <;>
    rcases AList.lookup_insert_cases hb' with ⟨rfl, rfl⟩ | h
  · exact .inr ⟨rfl, .inl ⟨hnone, rfl⟩⟩
  · exact .inl h
  · exact .inr ⟨rfl, .inr ⟨b, hb, rfl⟩⟩
  · exact .inl h

/-- The sum under `k.2` gains `v`, when the raw sum does not wrap. -/
theorem balanceSum (h : AddAt s s' k v)
    (hw : ∀ b, s.accounts.lookup k = some b → int64 (b.amount + v.amount) = b.amount + v.amount)
    (sym : UInt64) :
    Token.balanceSum s' sym = Token.balanceSum s sym + (if k.2 = sym then v.amount else 0) := by
  obtain ⟨-, ⟨hnone, hacc⟩ | ⟨b, hb, hacc⟩⟩ := h <;> simp only [Token.balanceSum, hacc]
  · rw [AList.sum_insert_of_notMem _ _ (AList.lookup_eq_none.1 hnone), add_comm]
  · have := AList.sum_insert_of_lookup (fun k b => if k.2 = sym then b.amount else 0)
      { b with amount := int64 (b.amount + v.amount) } hb
    simp only [hw b hb] at this ⊢
    split_ifs at this ⊢ <;> omega

/-- As a change of one row's amount: it grows by `v`. -/
theorem shift (h : AddAt s s' k v)
    (hw : ∀ b, s.accounts.lookup k = some b → int64 (b.amount + v.amount) = b.amount + v.amount) :
    AList.Shift (fun _ b => b.amount) s.accounts s'.accounts k v.amount := by
  obtain ⟨-, ⟨hnone, hacc⟩ | ⟨b, hb, hacc⟩⟩ := h <;> rw [hacc]
  · exact AList.shift_insert (by simp [hnone])
  · exact AList.shift_insert (by simp [hb, hw b hb])

end AddAt


/-! ## The invariant across each action -/

namespace Inv
variable {s s' : State}

/-- One balance row is at most the sum under its symbol name: the other rows are positive. -/
theorem amount_le_balanceSum (hi : Inv s) {k : Name × UInt64} {b : Asset}
    (hb : s.accounts.lookup k = some b) : b.amount ≤ balanceSum s k.2 := by
  have h := AList.sum_erase_of_lookup (fun k' b' => if k'.2 = k.2 then b'.amount else 0) hb
  have hnn : 0 ≤ (s.accounts.erase k).sum (fun k' b' => if k'.2 = k.2 then b'.amount else 0) :=
    AList.sum_nonneg fun k' b' hb' => by
      have := hi.balancePos k' b' (AList.lookup_of_lookup_erase hb').2
      split_ifs <;> omega
  simp only [if_true] at h
  simp only [balanceSum]
  omega

/-- Every balance row is within the asset range. -/
theorem row_le (hi : Inv s) {k : Name × UInt64} {b : Asset} (hb : s.accounts.lookup k = some b) :
    b.amount ≤ Asset.maxAmount := by
  obtain ⟨st, hst, -⟩ := hi.balanceStat k b hb
  calc b.amount ≤ balanceSum s k.2 := hi.amount_le_balanceSum hb
    _ = st.supply.amount := (hi.supply _ _ hst).symm
    _ ≤ st.maxSupply.amount := hi.supplyLe _ _ hst
    _ ≤ Asset.maxAmount := hi.maxLe _ _ hst

/-- After a debit every row is still a positive amount within range, so crediting a valid
amount cannot wrap. -/
theorem noWrap_of_subAt (hi : Inv s) {s₁ : State} {k : Name × UInt64} {a v : Int}
    (hsub : SubAt s s₁ k a) (ha : 0 ≤ a) (hv : 0 ≤ v) (hvle : v ≤ Asset.maxAmount)
    {k' : Name × UInt64} {b : Asset} (hb : s₁.accounts.lookup k' = some b) :
    int64 (b.amount + v) = b.amount + v := by
  obtain ⟨b₀, hb₀, -, hle, hb'⟩ := hsub.rows ha (fun b hb => hi.row_le hb) hb
  have h₀ := hi.row_le hb₀
  have hp := hi.balancePos _ _ hb₀
  have hbpos : 0 < b.amount := by rcases hb' with h | h <;> omega
  unfold Asset.maxAmount at h₀ hvle
  exact int64_of_lt (by omega) (by omega)

/-- A balance move of `v` from `(f, n)` to `(t, n)` keeps the invariant, whether done by the
contract's `sub_balance`/`add_balance` or by the native helpers. -/
theorem move {s₁ : State} (hi : Inv s) {f t : Name} {n : UInt64} {v : Asset}
    (hsub : SubAt s s₁ (f, n) v.amount) (hadd : AddAt s₁ s' (t, n) v)
    (hpos : 0 < v.amount) (hle : v.amount ≤ Asset.maxAmount)
    (hst : ∃ st, s.stat.lookup n = some st ∧ v.symbol = st.supply.symbol) : Inv s' := by
  have hstat : s'.stat = s.stat := hadd.1.trans hsub.1
  -- every row of the intermediate state is an old row, possibly shrunk but still positive
  have hrow₁ : ∀ k b, s₁.accounts.lookup k = some b →
      ∃ b₀, s.accounts.lookup k = some b₀ ∧ b.symbol = b₀.symbol ∧ 0 < b.amount ∧ b.amount ≤ b₀.amount := by
    intro k b hb
    obtain ⟨b₀, hb₀, hsym, hle', hpos'⟩ := hsub.rows hpos.le (fun b hb => hi.row_le hb) hb
    refine ⟨b₀, hb₀, hsym, ?_, hle'⟩
    rcases hpos' with h | h
    · rw [h]; exact hi.balancePos _ _ hb₀
    · exact h
  have hw : ∀ b, s₁.accounts.lookup (t, n) = some b →
      int64 (b.amount + v.amount) = b.amount + v.amount :=
    fun _ hb => hi.noWrap_of_subAt hsub hpos.le hpos.le hle hb
  have hsum : ∀ sym, balanceSum s' sym = balanceSum s sym := by
    intro sym
    have h1 := hsub.balanceSum hpos.le (fun b hb => hi.row_le hb) sym
    have h2 := hadd.balanceSum hw sym
    simp only at h1 h2
    omega
  refine ⟨?_, ?_, ?_, ?_, ?_, ?_, ?_, ?_⟩
  · rw [hstat]; exact hi.key
  · rw [hstat]; exact hi.maxSymbol
  · rw [hstat]; exact hi.maxLe
  · intro sym st h; rw [hstat] at h; rw [hsum]; exact hi.supply _ _ h
  · rw [hstat]; exact hi.supplyNonneg
  · rw [hstat]; exact hi.supplyLe
  · intro k b hb
    rcases hadd.rows hb with ⟨-, h⟩ | ⟨-, ⟨-, rfl⟩ | ⟨b₁, hb₁, rfl⟩⟩
    · obtain ⟨-, -, -, hb, -⟩ := hrow₁ _ _ h
      exact hb
    · exact hpos
    · obtain ⟨-, -, -, hb₁', -⟩ := hrow₁ _ _ hb₁
      show 0 < int64 (b₁.amount + v.amount)
      rw [hw b₁ hb₁]; exact add_pos hb₁' hpos
  · intro k b hb
    rw [hstat]
    rcases hadd.rows hb with ⟨-, h⟩ | ⟨rfl, ⟨-, rfl⟩ | ⟨b₁, hb₁, rfl⟩⟩
    · obtain ⟨b₀, hb₀, hsym, -⟩ := hrow₁ _ _ h
      rw [hsym]; exact hi.balanceStat _ _ hb₀
    · exact hst
    · obtain ⟨b₀, hb₀, hsym, -⟩ := hrow₁ _ _ hb₁
      exact hsym ▸ hi.balanceStat _ _ hb₀

theorem create (hi : Inv s) {env : Env} {auths : List Name} {issuer : Name} {q : Asset}
    (h : Token.create env auths s issuer q = .ok s') : Inv s' := by
  simp only [Token.create, requireAuth, Except.bind_eq_ok, eosioAssert_eq_ok, decide_eq_true_eq,
    Except.pure_eq_ok, Option.isNone_iff_eq_none] at h
  obtain ⟨-, -, -, -, -, hv, -, hpos, -, hnone, rfl⟩ := h
  have hq := Asset.range_of_isValid hv
  -- no balance row can sit under a symbol name without a `stat` row
  have hfresh : ∀ k b, s.accounts.lookup k = some b → k.2 ≠ q.symbol.name := by
    intro k b hb e
    obtain ⟨st, hst, -⟩ := hi.balanceStat k b hb
    rw [e, hnone] at hst
    cases hst
  have hzero : balanceSum s q.symbol.name = 0 := by
    have : balanceSum s q.symbol.name = s.accounts.sum (fun _ _ => (0 : Int)) :=
      AList.sum_congr fun k b hb => by simp [hfresh k b hb]
    rw [this]; simp [AList.sum]
  refine ⟨?_, ?_, ?_, ?_, ?_, ?_, hi.balancePos, ?_⟩ <;>
    try (intro sym st h; rcases AList.lookup_insert_cases h with ⟨rfl, rfl⟩ | ⟨-, h⟩)
  · rfl
  · exact hi.key _ _ h
  · rfl
  · exact hi.maxSymbol _ _ h
  · exact hq.2
  · exact hi.maxLe _ _ h
  · exact hzero.symm
  · exact hi.supply _ _ h
  · exact le_rfl
  · exact hi.supplyNonneg _ _ h
  · exact hpos.le
  · exact hi.supplyLe _ _ h
  · intro k b hb
    obtain ⟨st, hst, hsym⟩ := hi.balanceStat k b hb
    exact ⟨st, by rw [AList.lookup_insert_ne (hfresh k b hb)]; exact hst, hsym⟩

theorem transfer (hi : Inv s) {env : Env} {auths : List Name} {f t : Name} {q : Asset}
    {memo : String} (h : Token.transfer env auths s f t q memo = .ok s') : Inv s' := by
  simp only [Token.transfer, requireAuth, Except.bind_eq_ok, eosioAssert_eq_ok, decide_eq_true_eq,
    getRow_eq_ok] at h
  obtain ⟨-, -, -, -, -, -, st, hst, -, hv, -, hpos, -, hsym, -, -, s₁, h1, h2⟩ := h
  exact hi.move (subBalance_subAt h1) (addBalance_addAt h2).1 hpos (Asset.range_of_isValid hv).2
    ⟨st, hst, hsym⟩

/-- A transfer moves `q` out of the sender's row and into the receiver's; every other row
keeps its balance. -/
theorem transfer_balance (hi : Inv s) {env : Env} {auths : List Name} {f t : Name} {q : Asset}
    {memo : String} (h : Token.transfer env auths s f t q memo = .ok s') (k : Name × UInt64) :
    balance s' k = balance s k - (if k = (f, q.symbol.name) then q.amount else 0) +
      (if k = (t, q.symbol.name) then q.amount else 0) := by
  simp only [Token.transfer, requireAuth, Except.bind_eq_ok, eosioAssert_eq_ok, decide_eq_true_eq,
    getRow_eq_ok] at h
  obtain ⟨-, -, -, -, -, -, st, hst, -, hv, -, hpos, -, hsym, -, -, s₁, h1, h2⟩ := h
  have hle := (Asset.range_of_isValid hv).2
  have hsub := subBalance_subAt h1
  have h₁ := (hsub.shift hpos.le fun b hb => hi.row_le hb).lookup k
  have h₂ := ((addBalance_addAt h2).1.shift
    fun b hb => hi.noWrap_of_subAt hsub hpos.le hpos.le hle hb).lookup k
  simp only [balance] at h₁ h₂ ⊢
  rw [h₂, h₁]
  split_ifs <;> omega

theorem nativeTransferInline (hi : Inv s) {env : Env} {r t : Name} {a : Int} {sym : UInt64}
    (h : Token.nativeTransferInline env s r t a sym = .ok s') : Inv s' := by
  simp only [Token.nativeTransferInline, Except.bind_eq_ok, eosioAssert_eq_ok, decide_eq_true_eq,
    getRow_eq_ok, Asset.make_eq_ok] at h
  obtain ⟨-, -, -, -, st, hst, q, ⟨hr, -, rfl⟩, -, -, -, hpos, -, hsym, s₁, h1, h2⟩ := h
  exact hi.move (nativeSubBalance_subAt h1) (nativeAddBalance_addAt h2) hpos hr.2 ⟨st, hst, hsym⟩

theorem nativeTransfer (hi : Inv s) {env : Env} {auths : List Name} {f t : Name} {a : Int}
    {sym : UInt64} (h : Token.nativeTransfer env auths s f t a sym = .ok s') : Inv s' := by
  simp only [Token.nativeTransfer, requireAuth, Except.bind_eq_ok, eosioAssert_eq_ok,
    decide_eq_true_eq, getRow_eq_ok, Asset.make_eq_ok] at h
  obtain ⟨-, -, -, -, -, -, st, hst, q, ⟨hr, -, rfl⟩, -, -, -, hpos, -, hsym, s₁, h1, h2⟩ := h
  -- the stat row found under `sym` is the core symbol's, so the rows moved are under its name
  have hkey : coreSymbol.value >>> 8 = sym >>> 8 := by
    have := hi.key _ _ hst; rw [← hsym] at this; exact this
  have hsub := nativeSubBalance_subAt h1
  have hadd := nativeAddBalance_addAt h2
  rw [hkey] at hsub hadd
  exact hi.move hsub hadd hpos hr.2 ⟨st, hst, hsym⟩

/-- The first half of `issue`: the supply under `n` grows by `q` and the issuer's balance is
credited with `q`. -/
theorem mint (hi : Inv s) {s₂ : State} {n : UInt64} {st : CurrencyStats} {q supply : Asset}
    (hst : s.stat.lookup n = some st) (hn : q.symbol.name = n) (hv : q.isValid = true)
    (hpos : 0 < q.amount) (hsym : q.symbol = st.supply.symbol)
    (hcap : q.amount ≤ int64 (st.maxSupply.amount - st.supply.amount))
    (hsup : st.supply.addAssign q = .ok supply)
    (h : addBalance { s with stat := s.stat.insert n { st with supply } } st.issuer q = .ok s₂) :
    Inv s₂ := by
  subst hn
  obtain ⟨-, -, -, rfl⟩ := Asset.addAssign_eq_ok.1 hsup
  obtain ⟨hadd, -⟩ := addBalance_addAt h
  have hq := Asset.range_of_isValid hv
  have hs0 := hi.supplyNonneg _ _ hst
  have hs1 := hi.supplyLe _ _ hst
  have hs2 := hi.maxLe _ _ hst
  unfold Asset.maxAmount at hq hs2
  have hcap' : q.amount ≤ st.maxSupply.amount - st.supply.amount := by
    rwa [int64_of_lt (by omega) (by omega)] at hcap
  have hnew : int64 (st.supply.amount + q.amount) = st.supply.amount + q.amount :=
    int64_of_lt (by omega) (by omega)
  -- the issuer's old row is part of the old supply, so crediting it cannot wrap
  have hw : ∀ b, s.accounts.lookup (st.issuer, q.symbol.name) = some b →
      int64 (b.amount + q.amount) = b.amount + q.amount := by
    intro b hb
    have := hi.amount_le_balanceSum hb
    rw [← hi.supply _ _ hst] at this
    have := hi.balancePos _ _ hb
    exact int64_of_lt (by omega) (by omega)
  have hsum := hadd.balanceSum hw
  have hstat : s₂.stat = s.stat.insert q.symbol.name
      { st with supply := { st.supply with amount := int64 (st.supply.amount + q.amount) } } := hadd.1
  -- a row under `q`'s name finds the replaced `stat` row, which keeps the supply's symbol
  have hrowStat : ∀ (k : Name × UInt64) (b : Asset), (∃ st', s.stat.lookup k.2 = some st' ∧ b.symbol = st'.supply.symbol) →
      ∃ st', s₂.stat.lookup k.2 = some st' ∧ b.symbol = st'.supply.symbol := by
    rintro k b ⟨st', h', hb⟩
    rw [hstat]
    by_cases hk : k.2 = q.symbol.name
    · rw [hk, hst] at h'; cases h'
      exact ⟨{ st with supply := { st.supply with amount := int64 (st.supply.amount + q.amount) } },
        by rw [hk, AList.lookup_insert], hb⟩
    · exact ⟨st', by rw [AList.lookup_insert_ne hk]; exact h', hb⟩
  refine ⟨?_, ?_, ?_, ?_, ?_, ?_, ?_, ?_⟩ <;>
    try (intro sym st' h; rw [hstat] at h; rcases AList.lookup_insert_cases h with ⟨rfl, rfl⟩ | ⟨hne, h⟩)
  · exact (hi.key _ _ hst :)
  · exact hi.key _ _ h
  · exact (hi.maxSymbol _ _ hst :)
  · exact hi.maxSymbol _ _ h
  · exact hs2
  · exact hi.maxLe _ _ h
  · show int64 (st.supply.amount + q.amount) = _
    rw [hnew, hsum]
    change _ = balanceSum s q.symbol.name + _
    rw [← hi.supply _ _ hst]
    simp
  · simp only [hsum, if_neg (Ne.symm hne), add_zero]; exact hi.supply _ _ h
  · simp only [hnew]; omega
  · exact hi.supplyNonneg _ _ h
  · simp only [hnew]; omega
  · exact hi.supplyLe _ _ h
  · intro k b hb
    rcases hadd.rows hb with ⟨-, h⟩ | ⟨-, ⟨-, rfl⟩ | ⟨b₁, hb₁, rfl⟩⟩
    · exact hi.balancePos _ _ h
    · exact hpos
    · show 0 < int64 (b₁.amount + q.amount)
      rw [hw b₁ hb₁]; exact add_pos (hi.balancePos _ _ hb₁) hpos
  · intro k b hb
    rcases hadd.rows hb with ⟨-, h⟩ | ⟨rfl, ⟨-, rfl⟩ | ⟨b₁, hb₁, rfl⟩⟩
    · exact hrowStat _ _ (hi.balanceStat _ _ h)
    · exact hrowStat _ _ ⟨st, hst, hsym⟩
    · obtain ⟨st', h', e⟩ := hi.balanceStat _ _ hb₁
      exact hrowStat _ _ ⟨st', h', e⟩

theorem issue (hi : Inv s) {env : Env} {auths : List Name} {t : Name} {q : Asset} {memo : String}
    (h : Token.issue env auths s t q memo = .ok s') : Inv s' := by
  simp only [Token.issue, requireAuth, Except.bind_eq_ok, eosioAssert_eq_ok, decide_eq_true_eq,
    getRow_eq_ok] at h
  obtain ⟨-, -, -, -, st, hst, -, -, -, hv, -, hpos, -, hsym, -, hcap, supply, hsup, s₂, h2, h3⟩ := h
  have hi₂ := hi.mint hst rfl hv hpos hsym hcap hsup h2
  split at h3
  · exact hi₂.transfer h3
  · simp only [Except.pure_eq_ok] at h3; exact h3 ▸ hi₂

end Inv

/-! ## Every run -/

theorem Inv.init : Inv State.init :=
  ⟨by simp [State.init], by simp [State.init], by simp [State.init], by simp [State.init],
    by simp [State.init], by simp [State.init], by simp [State.init], by simp [State.init]⟩

/-- Each action, completed, keeps the invariant. -/
theorem Inv.step (env : Env) : Transition.Preserves Inv (step env) := by
  rintro s ⟨auths, act⟩ s' hi h
  cases act with
  | create issuer q => exact hi.create h
  | issue t q memo => exact hi.issue h
  | transfer f t q memo => exact hi.transfer h
  | nativeTransfer f t a sym => exact hi.nativeTransfer h
  | nativeTransferInline r t a sym => exact hi.nativeTransferInline h

/-- Token conservation: after any sequence of `create`, `issue` (with its inline transfer) and
`transfer` actions and native `transfer`/`transfer_inline` calls, each completing or aborting as
a whole, every symbol name with a `stat` row has its supply equal to the sum of the balances
stored under it and between zero and the maximum supply, and every balance row is positive,
carries the supply's symbol and sits under a symbol name that has a `stat` row. -/
theorem token_supply_conserved (env : Env) (reqs : List Request) :
    let s := Transition.run (step env) State.init reqs
    (∀ sym st, s.stat.lookup sym = some st →
      st.supply.amount = balanceSum s sym ∧ 0 ≤ st.supply.amount ∧
        st.supply.amount ≤ st.maxSupply.amount) ∧
    (∀ k b, s.accounts.lookup k = some b →
      0 < b.amount ∧ ∃ st, s.stat.lookup k.2 = some st ∧ b.symbol = st.supply.symbol) := by
  intro s
  have hi : Inv s := (Inv.step env).run Inv.init reqs
  exact ⟨fun sym st h => ⟨hi.supply _ _ h, hi.supplyNonneg _ _ h, hi.supplyLe _ _ h⟩,
    fun k b h => ⟨hi.balancePos _ _ h, hi.balanceStat _ _ h⟩⟩

end Token
end Safeos
