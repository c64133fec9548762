import Safeos.Chain.Symbol
import Mathlib

/-!
# Parsing chain symbols and assets

`symbol::from_string` accepts exactly a precision part, a comma and a name part whose
characters before the first NUL are up to seven upper-case letters, where `to_int64` reads the
precision part as a value that is at most 18 modulo 256: the `uint8_t` it is stored in keeps
only its low byte, so `260,EOS` is accepted as `4,EOS`, and `c_str()` ends the name at a NUL, so
`4,EO` followed by a NUL and `S` is accepted as `4,EO` (`Symbol.fromString_ok_iff`). An eighth
letter is shifted by 64 onto the precision byte, where it sets bit 6 (`symbolBits_eighth`), and
the symbol is then rejected as invalid.

`asset::from_string` takes the number of characters after the `.` as the precision and reads
them with `to_int64`, which takes a sign: `1.-5 EOS` is the asset `0.95 EOS`
(`Asset.fromString_sign_in_fraction`).
-/

namespace Safeos

namespace Chain

/-! ## Splitting at the first occurrence -/

theorem split_idxOf {a : Char} {s : List Char} (h : a ∈ s) :
    s = s.take (s.idxOf a) ++ a :: s.drop (s.idxOf a + 1) ∧ a ∉ s.take (s.idxOf a) := by
  have hlt : s.idxOf a < s.length := List.idxOf_lt_length_iff.2 h
  refine ⟨?_, fun hm => ?_⟩
  · conv_lhs => rw [← List.take_append_drop (s.idxOf a) s]
    rw [List.drop_eq_getElem_cons hlt, List.getElem_idxOf hlt]
  · have := (List.mem_take_iff_idxOf_lt h).1 hm
    omega

theorem idxOf_append_cons {a : Char} {p q : List Char} (h : a ∉ p) :
    (p ++ a :: q).idxOf a = p.length := by
  rw [List.idxOf_append_of_notMem h, List.idxOf_cons_self, Nat.add_zero]

/-! ## The letters of a symbol -/

/-- An upper-case letter, the only characters `string_to_symbol` accepts. -/
def IsUpper (c : Char) : Prop := 'A' ≤ c ∧ c ≤ 'Z'

instance (c : Char) : Decidable (IsUpper c) := inferInstanceAs (Decidable ('A' ≤ c ∧ c ≤ 'Z'))

theorem IsUpper.toNat {c : Char} (h : IsUpper c) : 65 ≤ c.toNat ∧ c.toNat ≤ 90 := h

/-- The bits the loop of `string_to_symbol` ORs in from the letter at index `i`, the assertion
left out. -/
def symbolBits : List Char → Nat → UInt64 → UInt64
  | [], _, r => r
  | c :: cs, i, r => symbolBits cs (i + 1) (r ||| (c.toNat.toUInt64 <<< (8 * (i + 1)).toUInt64))

theorem stringToSymbolLoop_eq (cs : List Char) (i : Nat) (r : UInt64) :
    stringToSymbolLoop cs i r =
      if ∀ c ∈ cs, IsUpper c then .ok (symbolBits cs i r)
      else .error "invalid character in symbol name" := by
  induction cs generalizing i r with
  | nil =>
    rw [if_pos (fun _ h => absurd h List.not_mem_nil)]
    rfl
  | cons c cs ih =>
    rw [stringToSymbolLoop, symbolBits, ih]
    by_cases hc : IsUpper c
    · -- the letter passes its check and the rest decides
      have hassert : eosioAssert (decide ('A' ≤ c ∧ c ≤ 'Z')) "invalid character in symbol name"
          = .ok () := eosioAssert_eq_ok.2 (decide_eq_true hc)
      have hall : (∀ d ∈ c :: cs, IsUpper d) ↔ ∀ d ∈ cs, IsUpper d := by
        rw [List.forall_mem_cons]
        exact and_iff_right hc
      rw [hassert]
      by_cases hcs : ∀ d ∈ cs, IsUpper d
      · rw [if_pos hcs, if_pos (hall.2 hcs)]
        rfl
      · rw [if_neg hcs, if_neg (mt hall.1 hcs)]
        rfl
    · -- the letter fails its check
      have hassert : eosioAssert (decide ('A' ≤ c ∧ c ≤ 'Z')) "invalid character in symbol name"
          = .error "invalid character in symbol name" := by
        rw [decide_eq_false (show ¬('A' ≤ c ∧ c ≤ 'Z') from hc)]
        rfl
      rw [hassert, if_neg (show ¬∀ d ∈ c :: cs, IsUpper d from fun h => hc (h c List.mem_cons_self))]
      rfl

/-- A name's letters as a number in base 256, the first letter lowest. -/
def packName : List Char → Nat
  | [] => 0
  | c :: cs => c.toNat + 256 * packName cs

/-- The letter at index `i < 7` lands in byte `i + 1`, above the bytes already written. -/
theorem or_letter_toNat {r : UInt64} {c : Char} {i : Nat} (hi : i < 7) (hc : c.toNat < 256)
    (hr : r.toNat < 256 ^ (i + 1)) :
    (r ||| (c.toNat.toUInt64 <<< (8 * (i + 1)).toUInt64)).toNat = r.toNat + c.toNat * 256 ^ (i + 1) := by
  have hpow : (256 : Nat) ^ (i + 1) = 2 ^ (8 * (i + 1)) := by
    rw [pow_mul]
    rfl
  have hbound : c.toNat * 2 ^ (8 * (i + 1)) < 2 ^ 64 := by
    have : 2 ^ (8 * (i + 1)) ≤ 2 ^ 56 := Nat.pow_le_pow_right (by omega) (by omega)
    calc c.toNat * 2 ^ (8 * (i + 1)) < 256 * 2 ^ 56 := by
          apply Nat.lt_of_lt_of_le (Nat.mul_lt_mul_of_pos_right hc (by positivity))
          exact Nat.mul_le_mul_left _ this
      _ = 2 ^ 64 := by norm_num
  have hshift : (c.toNat.toUInt64 <<< (8 * (i + 1)).toUInt64).toNat = c.toNat * 2 ^ (8 * (i + 1)) := by
    rw [UInt64.toNat_shiftLeft, Nat.shiftLeft_eq, Nat.toUInt64, UInt64.toNat_ofNat',
      UInt64.toNat_ofNat', Nat.mod_eq_of_lt (by omega : c.toNat < 2 ^ 64),
      Nat.mod_eq_of_lt (by omega : 8 * (i + 1) < 2 ^ 64), Nat.mod_eq_of_lt (by omega : 8 * (i + 1) < 64),
      Nat.mod_eq_of_lt hbound]
  rw [UInt64.toNat_or, hshift, Nat.lor_comm, Nat.mul_comm, ← Nat.two_pow_add_eq_or_of_lt (hpow ▸ hr),
    hpow]
  ring

/-- The loop on a name that stays within the seven bytes above the precision. -/
theorem symbolBits_toNat {cs : List Char} (h : ∀ c ∈ cs, IsUpper c) :
    ∀ (i : Nat) (r : UInt64), i + cs.length ≤ 7 → r.toNat < 256 ^ (i + 1) →
      (symbolBits cs i r).toNat = r.toNat + packName cs * 256 ^ (i + 1) := by
  induction cs with
  | nil =>
    intro i r _ _
    simp [symbolBits, packName]
  | cons c cs ih =>
    intro i r hlen hr
    have hc := (h c List.mem_cons_self).toNat
    have hstep := or_letter_toNat (c := c) (by simp at hlen; omega) (by omega) hr
    have hpow : (256 : Nat) ^ (i + 1 + 1) = 256 ^ (i + 1) * 256 := pow_succ _ _
    have hr' : (r ||| (c.toNat.toUInt64 <<< (8 * (i + 1)).toUInt64)).toNat < 256 ^ (i + 1 + 1) := by
      rw [hstep, hpow]
      have : c.toNat * 256 ^ (i + 1) ≤ 255 * 256 ^ (i + 1) := Nat.mul_le_mul_right _ (by omega)
      omega
    rw [symbolBits, ih (fun d hd => h d (List.mem_cons_of_mem c hd)) (i + 1) _
      (by simp at hlen; omega) hr', hstep, packName, hpow]
    ring

theorem symbolBits_append (as bs : List Char) (i : Nat) (r : UInt64) :
    symbolBits (as ++ bs) i r = symbolBits bs (i + as.length) (symbolBits as i r) := by
  induction as generalizing i r with
  | nil => rfl
  | cons a as ih =>
    rw [List.cons_append, symbolBits, symbolBits, ih, List.length_cons]
    congr 1
    omega

/-- The loop only sets bits. -/
theorem symbolBits_testBit {k : Nat} (cs : List Char) :
    ∀ (i : Nat) (r : UInt64), r.toNat.testBit k = true → (symbolBits cs i r).toNat.testBit k = true := by
  induction cs with
  | nil => exact fun _ _ h => h
  | cons c cs ih =>
    intro i r h
    apply ih
    rw [UInt64.toNat_or, Nat.testBit_or, h, Bool.true_or]

theorem testBit_six_of_upper : ∀ n < 128, 64 ≤ n → n.testBit 6 = true := by decide

/-- An eighth letter is shifted by 64, which the processor takes as 0: it lands on the precision
byte, and bit 6, which every letter has, is set there. -/
theorem symbolBits_eighth {cs : List Char} (h : ∀ c ∈ cs, IsUpper c) (hlen : 8 ≤ cs.length) :
    (symbolBits cs 0 0).toNat.testBit 6 = true := by
  obtain ⟨c, rest, hdrop⟩ : ∃ c rest, cs.drop 7 = c :: rest := by
    cases hd : cs.drop 7 with
    | nil =>
      have := congrArg List.length hd
      simp at this
      omega
    | cons c rest => exact ⟨c, rest, rfl⟩
  have hc := (h c (List.mem_of_mem_drop (hdrop ▸ List.mem_cons_self))).toNat
  have htake : (cs.take 7).length = 7 := by simp; omega
  rw [← List.take_append_drop 7 cs, symbolBits_append, htake, hdrop, symbolBits]
  apply symbolBits_testBit
  have hshift : (c.toNat.toUInt64 <<< (8 * (0 + 7 + 1)).toUInt64).toNat = c.toNat := by
    rw [UInt64.toNat_shiftLeft, Nat.toUInt64, UInt64.toNat_ofNat', UInt64.toNat_ofNat']
    norm_num
    omega
  rw [UInt64.toNat_or, Nat.testBit_or, hshift, testBit_six_of_upper c.toNat (by omega) (by omega),
    Bool.or_true]

/-! ## Reading the name back -/

theorem and_0xFF_toNat (w : UInt64) : (w &&& 0xFF).toNat = w.toNat % 256 := by
  rw [UInt64.toNat_and]
  change w.toNat &&& (2 ^ 8 - 1) = _
  rw [Nat.and_two_pow_sub_one_eq_mod]

theorem shiftRight_eight_toNat (w : UInt64) : (w >>> 8).toNat = w.toNat / 256 := by
  rw [UInt64.toNat_shiftRight, Nat.shiftRight_eq_div_pow]
  rfl

/-- One round of `symbol::name`'s loop, on the value's number. -/
theorem nameLoop_eq (w : UInt64) :
    Symbol.nameLoop w =
      if w.toNat = 0 then [] else Char.ofNat (w.toNat % 256) :: Symbol.nameLoop (w >>> 8) := by
  rw [Symbol.nameLoop]
  by_cases hw : w.toNat = 0
  · have : ¬w > 0 := by
      show ¬(0 : UInt64) < w
      rw [UInt64.lt_iff_toNat_lt, hw]
      simp
    rw [dif_neg this, if_pos hw]
  · have : w > 0 := by
      show (0 : UInt64) < w
      rw [UInt64.lt_iff_toNat_lt]
      simp only [UInt64.toNat_zero]
      omega
    rw [dif_pos this, if_neg hw, and_0xFF_toNat]

/-- `symbol::name` reads back, byte by byte, the letters packed above the low byte. -/
theorem nameLoop_packName {cs : List Char} (h : ∀ c ∈ cs, IsUpper c) :
    ∀ w : UInt64, w.toNat = packName cs → Symbol.nameLoop w = cs := by
  induction cs with
  | nil =>
    intro w hw
    rw [nameLoop_eq, if_pos (show w.toNat = 0 from hw)]
  | cons c cs ih =>
    intro w hw
    have hc := (h c List.mem_cons_self).toNat
    rw [packName] at hw
    have hlow : w.toNat % 256 = c.toNat := by omega
    have hhigh : (w >>> 8).toNat = packName cs := by
      rw [shiftRight_eight_toNat]
      omega
    rw [nameLoop_eq, if_neg (by omega), hlow, Char.ofNat_toNat,
      ih (fun d hd => h d (List.mem_cons_of_mem c hd)) _ hhigh]

theorem toNat_ofNat_of_lt {n : Nat} (h : n < 256) : (Char.ofNat n).toNat = n := by
  rw [Char.ofNat, dif_pos (Or.inl (by omega))]
  rfl

/-- Different values have different names: the loop writes every byte up to the highest
non-zero one. -/
theorem nameLoop_inj : ∀ w₁ w₂ : UInt64, Symbol.nameLoop w₁ = Symbol.nameLoop w₂ → w₁ = w₂ := by
  intro w₁
  induction hn : w₁.toNat using Nat.strong_induction_on generalizing w₁ with
  | _ n ih =>
    intro w₂ heq
    rw [nameLoop_eq w₁, nameLoop_eq w₂] at heq
    by_cases h₁ : w₁.toNat = 0 <;> by_cases h₂ : w₂.toNat = 0
    · exact UInt64.toNat_inj.1 (by omega)
    · rw [if_pos h₁, if_neg h₂] at heq
      exact absurd heq.symm (List.cons_ne_nil _ _)
    · rw [if_neg h₁, if_pos h₂] at heq
      exact absurd heq (List.cons_ne_nil _ _)
    · rw [if_neg h₁, if_neg h₂, List.cons.injEq] at heq
      obtain ⟨hhead, htail⟩ := heq
      have hlow : w₁.toNat % 256 = w₂.toNat % 256 := by
        have := congrArg Char.toNat hhead
        rwa [toNat_ofNat_of_lt (Nat.mod_lt _ (by omega)),
          toNat_ofNat_of_lt (Nat.mod_lt _ (by omega))] at this
      have hhigh := ih _ (by rw [shiftRight_eight_toNat]; omega) _ rfl _ htail
      have hdiv := congrArg UInt64.toNat hhigh
      rw [shiftRight_eight_toNat, shiftRight_eight_toNat] at hdiv
      exact UInt64.toNat_inj.1 (by omega)

theorem decimals_toNat (s : Symbol) : s.decimals.toNat = s.value.toNat % 256 := by
  rw [Symbol.decimals, UInt64.toNat_toUInt8, and_0xFF_toNat]
  omega

/-- A symbol is its decimals and its name. -/
theorem Symbol.ext_decimals_name {s t : Symbol} (hd : s.decimals = t.decimals)
    (hn : s.name = t.name) : s = t := by
  have hlow := congrArg UInt8.toNat hd
  rw [decimals_toNat, decimals_toNat] at hlow
  have hhigh := congrArg UInt64.toNat (nameLoop_inj _ _ hn)
  rw [shiftRight_eight_toNat, shiftRight_eight_toNat] at hhigh
  have hvalue : s.value = t.value := UInt64.toNat_inj.1 (by omega)
  cases s
  cases t
  rw [Symbol.mk.injEq]
  exact hvalue

/-! ## `string_to_symbol` and the symbol it builds -/

theorem stringToSymbol_eq_ok {p : UInt8} {cs : List Char} {w : UInt64}
    (h : stringToSymbol p cs = .ok w) :
    (∀ c ∈ cString cs, IsUpper c) ∧ w = symbolBits (cString cs) 0 0 ||| p.toUInt64 := by
  rw [stringToSymbol, stringToSymbolLoop_eq] at h
  by_cases hcs : ∀ c ∈ cString cs, IsUpper c
  · rw [if_pos hcs] at h
    exact ⟨hcs, (Except.ok.inj h).symm⟩
  · rw [if_neg hcs] at h
    exact absurd h (by simp [bind, Except.bind])

theorem stringToSymbol_of_upper {p : UInt8} {cs : List Char} (h : ∀ c ∈ cString cs, IsUpper c) :
    stringToSymbol p cs = .ok (symbolBits (cString cs) 0 0 ||| p.toUInt64) := by
  rw [stringToSymbol, stringToSymbolLoop_eq, if_pos h]
  rfl

/-- Up to seven letters: the precision byte is `p` and the name reads back. -/
theorem symbol_of_short {p : UInt8} {cs : List Char} (h : ∀ c ∈ cs, IsUpper c)
    (hlen : cs.length ≤ 7) :
    (Symbol.mk (symbolBits cs 0 0 ||| p.toUInt64)).decimals = p ∧
      (Symbol.mk (symbolBits cs 0 0 ||| p.toUInt64)).name = cs := by
  have hbits := symbolBits_toNat h 0 0 (by omega) (by simp)
  have hp : p.toNat < 2 ^ 8 := p.toNat_lt
  have hvalue : (symbolBits cs 0 0 ||| p.toUInt64).toNat = 256 * packName cs + p.toNat := by
    rw [UInt64.toNat_or, hbits, UInt8.toNat_toUInt64, UInt64.toNat_zero, Nat.zero_add, pow_one,
      Nat.mul_comm]
    exact (Nat.two_pow_add_eq_or_of_lt hp (packName cs)).symm
  constructor
  · apply UInt8.toNat_inj.1
    rw [decimals_toNat, hvalue]
    omega
  · apply nameLoop_packName h
    rw [shiftRight_eight_toNat, hvalue]
    omega

/-- Eight letters or more: the eighth sets bit 6 of the precision byte, so the decimals are at
least 64. -/
theorem decimals_of_long {p : UInt8} {cs : List Char} (h : ∀ c ∈ cs, IsUpper c)
    (hlen : 8 ≤ cs.length) : 64 ≤ (Symbol.mk (symbolBits cs 0 0 ||| p.toUInt64)).decimals.toNat := by
  rw [decimals_toNat]
  apply Nat.ge_two_pow_of_testBit (i := 6)
  change (_ % 2 ^ 8).testBit 6 = true
  rw [Nat.testBit_mod_two_pow, UInt64.toNat_or, Nat.testBit_or, symbolBits_eighth h hlen]
  rfl

theorem validName_iff (cs : List Char) : Symbol.validName cs = true ↔ ∀ c ∈ cs, IsUpper c := by
  simp [Symbol.validName, IsUpper]

theorem ofValue_eq_ok {w : UInt64} {s : Symbol} :
    Symbol.ofValue w = .ok s ↔ (Symbol.mk w).valid = true ∧ s = ⟨w⟩ := by
  simp only [Symbol.ofValue, Except.bind_eq_ok, eosioAssert_eq_ok, Except.pure_eq_ok]
  constructor
  · rintro ⟨-, hv, rfl⟩
    exact ⟨hv, rfl⟩
  · rintro ⟨hv, rfl⟩
    exact ⟨(), hv, rfl⟩

theorem narrow_toNat (v : Int) : (UInt8.ofNat (v % 256).toNat).toNat = (v % 256).toNat := by
  rw [UInt8.toNat_ofNat', Nat.mod_eq_of_lt (by omega)]

section FromString

variable (trim : List Char → List Char) (toInt64 : List Char → Except String Int)

/-- What `symbol::from_string` has checked when it succeeds. -/
theorem Symbol.split_of_fromString {str : List Char} {sym : Symbol}
    (h : Symbol.fromString trim toInt64 str = .ok sym) :
    ∃ prec name v, trim str = prec ++ ',' :: name ∧ ',' ∉ prec ∧ toInt64 prec = .ok v ∧
      (v % 256).toNat ≤ maxPrecision ∧ (cString name).length ≤ 7 ∧
      (∀ c ∈ cString name, IsUpper c) ∧ sym.decimals.toNat = (v % 256).toNat ∧
      sym.name = cString name := by
  simp only [Symbol.fromString, Except.bind_eq_ok, eosioAssert_eq_ok] at h
  obtain ⟨-, -, -, hcomma, v, hv, -, hprec, w, hw, hsym⟩ := h
  have hmem : ',' ∈ trim str := by
    apply List.idxOf_lt_length_iff.1
    have := List.idxOf_le_length (a := ',') (l := trim str)
    simp only [bne_iff_ne, ne_eq] at hcomma
    omega
  obtain ⟨hsplit, hnot⟩ := split_idxOf hmem
  obtain ⟨hupper, rfl⟩ := stringToSymbol_eq_ok hw
  obtain ⟨hvalid, rfl⟩ := ofValue_eq_ok.1 hsym
  simp only [decide_eq_true_eq, narrow_toNat] at hprec
  simp only [Symbol.valid, Bool.and_eq_true, decide_eq_true_eq] at hvalid
  -- an eighth letter would have set bit 6 of the precision byte
  have hlen : (cString ((trim str).drop ((trim str).idxOf ',' + 1))).length ≤ 7 := by
    by_contra hlong
    have := decimals_of_long (p := UInt8.ofNat (v % 256).toNat) hupper (by omega)
    unfold maxPrecision at hvalid
    omega
  obtain ⟨hdec, hname⟩ := symbol_of_short hupper hlen
  refine ⟨_, _, v, hsplit, hnot, hv, hprec, hlen, hupper, ?_, hname⟩
  rw [hdec, narrow_toNat]

/-- A precision part, a comma and a name part of up to seven upper-case letters before its first
NUL are accepted, as the symbol with those decimals and that name. -/
theorem Symbol.fromString_of_split {str prec name : List Char} {v : Int} {sym : Symbol}
    (htrim : trim str = prec ++ ',' :: name) (hnot : ',' ∉ prec) (hv : toInt64 prec = .ok v)
    (hprec : (v % 256).toNat ≤ maxPrecision) (hlen : (cString name).length ≤ 7)
    (hupper : ∀ c ∈ cString name, IsUpper c) (hdec : sym.decimals.toNat = (v % 256).toNat)
    (hname : sym.name = cString name) : Symbol.fromString trim toInt64 str = .ok sym := by
  have hidx : (trim str).idxOf ',' = prec.length := by
    rw [htrim]
    exact idxOf_append_cons hnot
  have htake : (trim str).take prec.length = prec := by
    rw [htrim, List.take_left']
    rfl
  have hdrop : (trim str).drop (prec.length + 1) = name := by
    rw [htrim, List.drop_append, List.drop_eq_nil_of_le (by omega), List.nil_append,
      Nat.add_sub_cancel_left]
    rfl
  obtain ⟨hdec', hname'⟩ := symbol_of_short (p := UInt8.ofNat (v % 256).toNat) hupper hlen
  have hvalid : (Symbol.mk (symbolBits (cString name) 0 0 |||
      (UInt8.ofNat (v % 256).toNat).toUInt64)).valid := by
    simp only [Symbol.valid, hdec', hname', narrow_toNat, Bool.and_eq_true, decide_eq_true_eq,
      validName_iff]
    exact ⟨hprec, hupper⟩
  have hsym : sym = ⟨symbolBits (cString name) 0 0 ||| (UInt8.ofNat (v % 256).toNat).toUInt64⟩ :=
    Symbol.ext_decimals_name (UInt8.toNat_inj.1 (by rw [hdec, hdec', narrow_toNat]))
      (by rw [hname, hname'])
  simp only [Symbol.fromString, Except.bind_eq_ok, eosioAssert_eq_ok, hidx, htake, hdrop]
  refine ⟨(), ?_, (), ?_, v, hv, (), ?_, _, stringToSymbol_of_upper hupper,
    ofValue_eq_ok.2 ⟨hvalid, hsym⟩⟩
  · simp [htrim]
  · simp [htrim]
  · rw [narrow_toNat]
    exact decide_eq_true hprec

end FromString

/-- `symbol::from_string` accepts exactly the strings whose trimmed text is a precision part, a
comma and a name part whose characters before the first NUL are up to seven upper-case letters,
where `to_int64` reads the precision part as some `v` with `v mod 256 ≤ 18`; the symbol it
returns has decimals `v mod 256` and those letters as its name. -/
theorem Symbol.fromString_ok_iff (trim : List Char → List Char) (toInt64 : List Char → Except String Int)
    (str : List Char) (sym : Symbol) :
    Symbol.fromString trim toInt64 str = .ok sym ↔
      ∃ prec name v, trim str = prec ++ ',' :: name ∧ ',' ∉ prec ∧ toInt64 prec = .ok v ∧
        (v % 256).toNat ≤ maxPrecision ∧ (cString name).length ≤ 7 ∧
        (∀ c ∈ cString name, IsUpper c) ∧ sym.decimals.toNat = (v % 256).toNat ∧
        sym.name = cString name := by
  constructor
  · exact Symbol.split_of_fromString trim toInt64
  · rintro ⟨prec, name, v, htrim, hnot, hv, hprec, hlen, hupper, hdec, hname⟩
    exact Symbol.fromString_of_split trim toInt64 htrim hnot hv hprec hlen hupper hdec hname

example : Symbol.fromString id (fun s => if s = ['2', '6', '0'] then .ok 260 else .error "")
    ['2', '6', '0', ',', 'E', 'O', 'S'] = .ok ⟨0x534F4504⟩ := by
  decide +kernel

example : Symbol.fromString id (fun s => if s = ['4'] then .ok 4 else .error "")
    ['4', ',', 'E', 'O', '\x00', 'S'] = .ok ⟨0x4F4504⟩ := by
  decide +kernel

/-! ## `asset::from_string` -/

/-- `1.-5 EOS`: two characters follow the `.`, so the precision is 2, and `to_int64` reads the
fraction `-5`; the amount is `1 * 100 - 5`, which `fc::safe<int64_t>` computes exactly. -/
theorem Asset.fromString_sign_in_fraction (trim : List Char → List Char)
    (toInt64 : List Char → Except String Int) (safeMul safeAdd : Int → Int → Except String Int)
    (htrim : trim ['1', '.', '-', '5', ' ', 'E', 'O', 'S'] = ['1', '.', '-', '5', ' ', 'E', 'O', 'S'] ∧
      trim ['E', 'O', 'S'] = ['E', 'O', 'S'] ∧ trim ['2', ',', 'E', 'O', 'S'] = ['2', ',', 'E', 'O', 'S'])
    (hint : toInt64 ['2'] = .ok 2 ∧ toInt64 ['1'] = .ok 1 ∧ toInt64 ['-', '5'] = .ok (-5))
    (hsafe : safeMul 1 100 = .ok 100 ∧ safeAdd 100 (-5) = .ok 95) :
    Asset.fromString trim toInt64 safeMul safeAdd ['1', '.', '-', '5', ' ', 'E', 'O', 'S'] =
        .ok ⟨95, ⟨0x534F4502⟩⟩ ∧
      (Symbol.mk 0x534F4502).decimals = 2 ∧ (Symbol.mk 0x534F4502).name = ['E', 'O', 'S'] := by
  obtain ⟨ht₁, ht₂, ht₃⟩ := htrim
  obtain ⟨hi₁, hi₂, hi₃⟩ := hint
  obtain ⟨hmul, hadd⟩ := hsafe
  -- the splits the parser makes, on this input
  have hspace : List.idxOf ' ' ['1', '.', '-', '5', ' ', 'E', 'O', 'S'] = 4 := rfl
  have hsymbol : List.drop (4 + 1) ['1', '.', '-', '5', ' ', 'E', 'O', 'S'] = ['E', 'O', 'S'] := rfl
  have hamount : List.take 4 ['1', '.', '-', '5', ' ', 'E', 'O', 'S'] = ['1', '.', '-', '5'] := rfl
  have hdot : List.idxOf '.' ['1', '.', '-', '5'] = 1 := rfl
  have hhas : (1 != ['1', '.', '-', '5'].length) = true := rfl
  have hpart : decimalString (['1', '.', '-', '5'].length - 1 - 1) ++ [',', 'E', 'O', 'S'] =
      ['2', ',', 'E', 'O', 'S'] := by decide
  have hcomma : List.idxOf ',' ['2', ',', 'E', 'O', 'S'] = 1 := rfl
  have hprec : List.take 1 ['2', ',', 'E', 'O', 'S'] = ['2'] := rfl
  have hwhole : List.take 1 ['1', '.', '-', '5'] = ['1'] := rfl
  have hfract : List.drop (1 + 1) ['1', '.', '-', '5'] = ['-', '5'] := rfl
  have hsym : Symbol.fromString trim toInt64 ['2', ',', 'E', 'O', 'S'] = .ok ⟨0x534F4502⟩ := by
    simp only [Symbol.fromString, ht₃, hcomma, hprec, hi₁]
    decide +kernel
  have hprecision : (Symbol.mk 0x534F4502).precision = .ok 100 := by decide
  have hmake : Asset.make 95 ⟨0x534F4502⟩ = .ok ⟨95, ⟨0x534F4502⟩⟩ := by decide +kernel
  refine ⟨?_, by decide, by decide +kernel⟩
  simp only [Asset.fromString, ht₁, hspace, hsymbol, ht₂, hamount, hdot, hhas, if_true, hpart,
    hsym, hwhole, hfract, hi₂, hi₃]
  simp [hprecision, hmul, hadd, hmake]

theorem Asset.fromString_sign_in_fraction_id :
    Asset.fromString id (fun s => if s = ['2'] then .ok 2 else if s = ['1'] then .ok 1
        else if s = ['-', '5'] then .ok (-5) else .error "Couldn't parse int64_t")
        (fun a b => .ok (a * b)) (fun a b => .ok (a + b))
        ['1', '.', '-', '5', ' ', 'E', 'O', 'S'] = .ok ⟨95, ⟨0x534F4502⟩⟩ :=
  (Asset.fromString_sign_in_fraction id _ _ _ ⟨rfl, rfl, rfl⟩ ⟨rfl, rfl, rfl⟩ ⟨rfl, rfl⟩).1

end Chain

end Safeos
