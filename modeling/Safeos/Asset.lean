import Safeos.Name
import Safeos.Lib.Run
import Mathlib.Tactic.Linarith

/-!
# Contract assets (`eosiolib/asset.hpp`, `eosiolib/symbol.hpp`)

A symbol is a 64-bit value: the precision in the low byte and up to seven upper-case letters
above it. An asset is an `int64_t` amount and a symbol. The contract library's operators check
the symbols they combine and keep the amount within `±(2^62 - 1)`; a failed `eosio_assert` is
an `Except.error` carrying its message.

Amounts are `Int`. Raw `int64_t` arithmetic, where the code does it without a range check, is
taken through `int64` (two's-complement wrap-around); `int64_of_lt` says when it is the identity.
-/

namespace Safeos

/-- `eosio_assert`: abort with `msg` unless `c`. -/
def eosioAssert (c : Bool) (msg : String) : Except String Unit :=
  if c then pure () else throw msg

@[simp] theorem eosioAssert_eq_ok {c : Bool} {msg : String} {u : Unit} :
    eosioAssert c msg = .ok u ↔ c = true := by
  unfold eosioAssert; cases c <;> simp [Except.pure_eq_ok]

theorem eosioAssert_true (msg : String) : eosioAssert true msg = .ok () := rfl

theorem eosioAssert_false (msg : String) : eosioAssert false msg = .error msg := rfl

theorem errorsIn_eosioAssert {p : String → Prop} {c : Bool} {msg : String} (h : p msg) :
    Except.ErrorsIn p (eosioAssert c msg) := by
  unfold eosioAssert
  split
  · exact Except.errorsIn_pure _
  · exact Except.errorsIn_throw h

/-- The message of a `chainbase` insert that breaks a unique index. -/
def uniquenessViolation : String :=
  "could not insert object, most likely a uniqueness constraint was violated"

/-- The value of an `int64_t` computation whose exact result is `x`. -/
def int64 (x : Int) : Int := x.bmod (2 ^ 64)

theorem int64_of_lt {x : Int} (h1 : -2 ^ 63 ≤ x) (h2 : x < 2 ^ 63) : int64 x = x :=
  Int.bmod_eq_of_le (by norm_num; omega) (by norm_num; omega)

/-- A raw `int64_t` sum of a non-negative `int64_t` and a smaller step that comes out
non-negative did not wrap: a wrapped sum would be negative. -/
theorem int64_add_of_nonneg {x u : Int} (hx : 0 ≤ x) (hx' : x < 2 ^ 63)
    (hu : -2 ^ 62 ≤ u ∧ u ≤ 2 ^ 62) (h : 0 ≤ int64 (x + u)) :
    int64 (x + u) = x + u ∧ x + u < 2 ^ 63 := by
  by_cases hlt : x + u < 2 ^ 63
  · exact ⟨int64_of_lt (by omega) hlt, hlt⟩
  · have e : int64 (x + u) = int64 (x + u - 2 ^ 64) := by
      unfold int64; rw [← Int.sub_bmod_right]; norm_num
    rw [e, int64_of_lt (by omega) (by omega)] at h
    omega

/-- The do-while of `is_valid_symbol`, run `n` times: every byte shifted in must be zero. -/
def isValidSymbolTail : Nat → UInt64 → Bool
  | 0, _ => true
  | n + 1, sym => if (sym >>> 8) &&& 0xff ≠ 0 then false else isValidSymbolTail n (sym >>> 8)

/-- The outer loop of `is_valid_symbol` at index `i`, with `k = 7 - i` iterations left: each
byte must be a letter until a zero byte, after which every byte must be zero. -/
def isValidSymbolLoop : Nat → Nat → UInt64 → Bool
  | 0, _, _ => true
  | k + 1, i, sym =>
    let c := sym &&& 0xff
    if ¬ (65 ≤ c ∧ c ≤ 90) then false
    else if (sym >>> 8) &&& 0xff = 0 then isValidSymbolTail (7 - i) (sym >>> 8)
    else isValidSymbolLoop k (i + 1) (sym >>> 8)

/-- `is_valid_symbol`. -/
def isValidSymbol (sym : UInt64) : Bool := isValidSymbolLoop 7 0 (sym >>> 8)

/-- `eosio::symbol_type`. -/
structure SymbolType where
  value : UInt64
deriving DecidableEq, Repr

namespace SymbolType

/-- `symbol_type::name`: the symbol without its precision byte, the key of the token tables. -/
def name (s : SymbolType) : UInt64 := s.value >>> 8

def isValid (s : SymbolType) : Bool := isValidSymbol s.value

end SymbolType

/-- `string_to_symbol` (the `S(P,X)` macro): letters outside `A`-`Z` are skipped. -/
def stringToSymbol (precision : UInt8) (str : List Char) : UInt64 :=
  (str.zipIdx.foldl (fun r ci =>
    if ci.1 < 'A' ∨ ci.1 > 'Z' then r else r ||| (ci.1.toNat.toUInt64 <<< (8 * (1 + ci.2)).toUInt64)) 0)
    ||| precision.toUInt64

/-- `CORE_SYMBOL`, `S(4,EOS)`. -/
def coreSymbol : SymbolType := ⟨stringToSymbol 4 "EOS".toList⟩

/-- `eosio::asset`. -/
structure Asset where
  amount : Int
  symbol : SymbolType
deriving DecidableEq, Repr

namespace Asset

/-- `asset::max_amount`, `2^62 - 1`. -/
def maxAmount : Int := 2 ^ 62 - 1

def isAmountWithinRange (a : Asset) : Bool := -maxAmount ≤ a.amount ∧ a.amount ≤ maxAmount

def isValid (a : Asset) : Bool := a.isAmountWithinRange && a.symbol.isValid

/-- The checked constructor `asset(a, s)`. -/
def make (a : Int) (s : SymbolType) : Except String Asset := do
  eosioAssert (-maxAmount ≤ a ∧ a ≤ maxAmount) "magnitude of asset amount must be less than 2^62"
  eosioAssert s.isValid "invalid symbol name"
  pure ⟨a, s⟩

/-- Unary minus: the amount negated in `int64_t`. -/
def neg (a : Asset) : Asset := { a with amount := int64 (-a.amount) }

/-- `operator+=`. -/
def addAssign (a b : Asset) : Except String Asset := do
  eosioAssert (b.symbol = a.symbol) "attempt to add asset with different symbol"
  let amount := int64 (a.amount + b.amount)
  eosioAssert (-maxAmount ≤ amount) "addition underflow"
  eosioAssert (amount ≤ maxAmount) "addition overflow"
  pure { a with amount }

/-- `operator-=`. -/
def subAssign (a b : Asset) : Except String Asset := do
  eosioAssert (b.symbol = a.symbol) "attempt to subtract asset with different symbol"
  let amount := int64 (a.amount - b.amount)
  eosioAssert (-maxAmount ≤ amount) "subtraction underflow"
  eosioAssert (amount ≤ maxAmount) "subtraction overflow"
  pure { a with amount }

/-- The comparison operators assert that the symbols agree, then compare the amounts. -/
def cmp (r : Int → Int → Bool) (a b : Asset) : Except String Bool := do
  eosioAssert (a.symbol = b.symbol) "comparison of assets with different symbols is not allowed"
  pure (r a.amount b.amount)

/-- `operator==`. -/
def eq (a b : Asset) : Except String Bool := cmp (· == ·) a b
/-- `operator<`. -/
def lt (a b : Asset) : Except String Bool := cmp (· < ·) a b
/-- `operator<=`. -/
def le (a b : Asset) : Except String Bool := cmp (· ≤ ·) a b
/-- `operator>`. -/
def gt (a b : Asset) : Except String Bool := cmp (· > ·) a b
/-- `operator>=`. -/
def ge (a b : Asset) : Except String Bool := cmp (· ≥ ·) a b
/-- `operator!=`, the negation of `==`: the symbols are checked as well. -/
def ne (a b : Asset) : Except String Bool := cmp (fun x y => !(x == y)) a b

@[simp] theorem cmp_eq_ok {r : Int → Int → Bool} {a b : Asset} {c : Bool} :
    cmp r a b = .ok c ↔ a.symbol = b.symbol ∧ c = r a.amount b.amount := by
  simp only [cmp, Except.bind_eq_ok, eosioAssert_eq_ok, decide_eq_true_eq, Except.pure_eq_ok]
  constructor
  · rintro ⟨-, h, rfl⟩; exact ⟨h, rfl⟩
  · rintro ⟨h, rfl⟩; exact ⟨(), h, rfl⟩

theorem range_of_isValid {a : Asset} (h : a.isValid = true) : -maxAmount ≤ a.amount ∧ a.amount ≤ maxAmount := by
  simp only [isValid, isAmountWithinRange, Bool.and_eq_true, decide_eq_true_eq] at h
  exact h.1

theorem make_eq_ok {a : Int} {s : SymbolType} {q : Asset} :
    make a s = .ok q ↔ (-maxAmount ≤ a ∧ a ≤ maxAmount) ∧ s.isValid = true ∧ q = ⟨a, s⟩ := by
  simp only [make, Except.bind_eq_ok, eosioAssert_eq_ok, decide_eq_true_eq, Except.pure_eq_ok]
  constructor
  · rintro ⟨-, h1, -, h2, rfl⟩; exact ⟨h1, h2, rfl⟩
  · rintro ⟨h1, h2, rfl⟩; exact ⟨(), h1, (), h2, rfl⟩

theorem addAssign_eq_ok {a b c : Asset} :
    a.addAssign b = .ok c ↔ b.symbol = a.symbol ∧ -maxAmount ≤ int64 (a.amount + b.amount) ∧
      int64 (a.amount + b.amount) ≤ maxAmount ∧ c = { a with amount := int64 (a.amount + b.amount) } := by
  simp only [addAssign, Except.bind_eq_ok, eosioAssert_eq_ok, decide_eq_true_eq, Except.pure_eq_ok]
  constructor
  · rintro ⟨-, h1, -, h2, -, h3, rfl⟩; exact ⟨h1, h2, h3, rfl⟩
  · rintro ⟨h1, h2, h3, rfl⟩; exact ⟨(), h1, (), h2, (), h3, rfl⟩

theorem subAssign_eq_ok {a b c : Asset} :
    a.subAssign b = .ok c ↔ b.symbol = a.symbol ∧ -maxAmount ≤ int64 (a.amount - b.amount) ∧
      int64 (a.amount - b.amount) ≤ maxAmount ∧ c = { a with amount := int64 (a.amount - b.amount) } := by
  simp only [subAssign, Except.bind_eq_ok, eosioAssert_eq_ok, decide_eq_true_eq, Except.pure_eq_ok]
  constructor
  · rintro ⟨-, h1, -, h2, -, h3, rfl⟩; exact ⟨h1, h2, h3, rfl⟩
  · rintro ⟨h1, h2, h3, rfl⟩; exact ⟨(), h1, (), h2, (), h3, rfl⟩

theorem int64_add_of_range {x y : Int} (hx : -maxAmount ≤ x ∧ x ≤ maxAmount)
    (hy : -maxAmount ≤ y ∧ y ≤ maxAmount) : int64 (x + y) = x + y := by
  unfold maxAmount at hx hy
  exact int64_of_lt (by omega) (by omega)

theorem int64_sub_of_range {x y : Int} (hx : -maxAmount ≤ x ∧ x ≤ maxAmount)
    (hy : -maxAmount ≤ y ∧ y ≤ maxAmount) : int64 (x - y) = x - y := by
  unfold maxAmount at hx hy
  exact int64_of_lt (by omega) (by omega)

end Asset

end Safeos
