import Safeos.Asset

/-!
# Chain symbols and assets (`chain/symbol.hpp`, `chain/asset.cpp`)

A chain `symbol` is a 64-bit value: the number of decimals in the low byte and the letters of
its name in the bytes above it, the first letter lowest. `symbol::from_string` and
`asset::from_string` read text through `fc::trim` and `fc::to_int64`, which this tree does not
include (`libraries/fc` is an empty submodule): both are parameters of the model, `trim` and
`toInt64`, and the theorems say what they assume of them. `toInt64` returns the `int64_t` it
parsed as an `Int`, or the error it raised. The `fc::safe<int64_t>` product and sum, also from
`fc`, are the parameters `safeMul` and `safeAdd` in the same way; `fc` raises
`overflow_exception` for a result above `INT64_MAX` and `underflow_exception` for one below
`INT64_MIN`.

A C++ string is the list of its characters, and may hold NUL characters; the C string
`c_str()` gives reads as far as the first of them. `string::find` is `List.idxOf`, which returns
the length where `find` returns `npos`.

`string_to_symbol` shifts the `i`-th letter by `8 * (i + 1)` with no bound on `i`. A shift of a
`uint64_t` by 64 or more is undefined in C++; the model takes it as the processor does, modulo
64, which is what `UInt64` shifts compute.
-/

namespace Safeos

namespace Chain

/-- `symbol::max_precision`. -/
def maxPrecision : Nat := 18

/-- `eosio::chain::to_string`, that is `std::to_string`, on an unsigned value. -/
def decimalString (n : Nat) : List Char := Nat.toDigits 10 n

/-- The loop of `string_to_symbol` from the letter at index `i`. -/
def stringToSymbolLoop : List Char → Nat → UInt64 → Except String UInt64
  | [], _, result => pure result
  | c :: cs, i, result => do
    -- All characters must be upper case alphabets
    eosioAssert (decide ('A' ≤ c ∧ c ≤ 'Z')) "invalid character in symbol name"
    stringToSymbolLoop cs (i + 1) (result ||| (c.toNat.toUInt64 <<< (8 * (i + 1)).toUInt64))

/-- The characters of the C string `c_str()` gives for `str`: those before its first NUL. -/
def cString (str : List Char) : List Char := str.take (str.idxOf '\x00')

/-- `string_to_symbol`, on a C string: `while(str[len]) ++len` counts the characters before the
first NUL, and the loop reads those. -/
def stringToSymbol (precision : UInt8) (str : List Char) : Except String UInt64 := do
  let result ← stringToSymbolLoop (cString str) 0 0
  pure (result ||| precision.toUInt64)

/-- `eosio::chain::symbol`. -/
structure Symbol where
  value : UInt64
deriving DecidableEq, Repr

namespace Symbol

/-- `symbol::decimals`. -/
def decimals (s : Symbol) : UInt8 := (s.value &&& 0xFF).toUInt8

/-- The loop of `symbol::name`: one character for each byte, lowest first, while any bits are
left. -/
def nameLoop (v : UInt64) : List Char :=
  if _h : v > 0 then Char.ofNat (v &&& 0xFF).toNat :: nameLoop (v >>> 8) else []
termination_by v.toNat
decreasing_by
  have h1 : (v >>> 8).toNat = v.toNat / 2 ^ 8 := by
    rw [UInt64.toNat_shiftRight, Nat.shiftRight_eq_div_pow]
    rfl
  have h2 : 0 < v.toNat := by
    rw [← UInt64.toNat_zero]
    exact _h
  omega

/-- `symbol::name`. -/
def name (s : Symbol) : List Char := nameLoop (s.value >>> 8)

/-- `symbol::valid_name`. -/
def validName (name : List Char) : Bool := name.all fun c => 'A' ≤ c && c ≤ 'Z'

/-- `symbol::valid`. -/
def valid (s : Symbol) : Bool := decide (s.decimals.toNat ≤ maxPrecision) && validName s.name

/-- `symbol(uint64_t v)`. -/
def ofValue (v : UInt64) : Except String Symbol := do
  eosioAssert (valid ⟨v⟩) "invalid symbol: ${name}"
  pure ⟨v⟩

/-- The loop of `symbol::precision`: `p10 *= 10` while `p` counts down. -/
def precisionLoop : Nat → UInt64 → UInt64
  | 0, p10 => p10
  | p + 1, p10 => precisionLoop p (p10 * 10)

/-- `symbol::precision`. -/
def precision (s : Symbol) : Except String UInt64 := do
  eosioAssert (decide (s.decimals.toNat ≤ maxPrecision)) "precision ${p} should be <= 18"
  pure (precisionLoop s.decimals.toNat 1)

/-- `symbol::operator string`. -/
def toString (s : Symbol) : List Char := decimalString s.decimals.toNat ++ ',' :: s.name

section Parse

variable (trim : List Char → List Char) (toInt64 : List Char → Except String Int)

/-- `symbol::from_string`: the precision is parsed as an `int64_t` and stored in a `uint8_t`
before it is checked, and the name is passed on as `name_part.c_str()`. -/
def fromString (str : List Char) : Except String Symbol := do
  let s := trim str
  eosioAssert (!s.isEmpty) "creating symbol from empty string"
  let commaPos := s.idxOf ','
  eosioAssert (commaPos != s.length) "missing comma in symbol"
  let precPart := s.take commaPos
  -- `uint8_t p = fc::to_int64(prec_part)`: the `int64_t` taken modulo 256
  let p : UInt8 := UInt8.ofNat ((← toInt64 precPart) % 256).toNat
  let namePart := s.drop (commaPos + 1)
  eosioAssert (decide (p.toNat ≤ maxPrecision)) "precision ${p} should be <= 18"
  ofValue (← stringToSymbol p namePart)

end Parse

end Symbol

/-- `asset::max_amount`. -/
def maxAmount : Int := 2 ^ 62 - 1

/-- `eosio::chain::asset`. -/
structure Asset where
  amount : Int
  sym : Symbol
deriving DecidableEq, Repr

namespace Asset

/-- `asset(share_type a, symbol id)`. -/
def make (a : Int) (id : Symbol) : Except String Asset := do
  eosioAssert (decide (-maxAmount ≤ a ∧ a ≤ maxAmount))
    "magnitude of asset amount must be less than 2^62"
  eosioAssert id.valid "invalid symbol"
  pure ⟨a, id⟩

/-- `asset::is_valid`. -/
def isValid (a : Asset) : Bool := decide (-maxAmount ≤ a.amount ∧ a.amount ≤ maxAmount) && a.sym.valid

/-- `asset::decimals`. -/
def decimals (a : Asset) : UInt8 := a.sym.decimals

section Parse

variable (trim : List Char → List Char) (toInt64 : List Char → Except String Int)
  (safeMul safeAdd : Int → Int → Except String Int)

/-- `asset::from_string`: the number of characters after the `.` gives the precision, and
the text on each side of it is parsed by `to_int64`. -/
def fromString (str : List Char) : Except String Asset := do
  let s := trim str
  -- Find space in order to split amount and symbol
  let spacePos := s.idxOf ' '
  eosioAssert (spacePos != s.length) "Asset's amount and symbol should be separated with space"
  let symbolStr := trim (s.drop (spacePos + 1))
  let amountStr := s.take spacePos
  -- Ensure that if decimal point is used (.), decimal fraction is specified
  let dotPos := amountStr.idxOf '.'
  let hasDot := dotPos != amountStr.length
  if hasDot then
    eosioAssert (dotPos != amountStr.length - 1) "Missing decimal fraction after decimal point"
  -- Parse symbol
  let precisionDigitStr := if hasDot then decimalString (amountStr.length - dotPos - 1) else ['0']
  let symbolPart := precisionDigitStr ++ ',' :: symbolStr
  let sym ← Symbol.fromString trim toInt64 symbolPart
  -- Parse amount
  let (intPart, fractPart) ← if hasDot then do
      let intPart ← toInt64 (amountStr.take dotPos)
      let fractPart ← toInt64 (amountStr.drop (dotPos + 1))
      let fractPart ← if amountStr.head? = some '-' then safeMul fractPart (-1)
        else pure fractPart
      pure (intPart, fractPart)
    else do
      let intPart ← toInt64 amountStr
      pure (intPart, 0)
  let amount ← safeMul intPart (← sym.precision).toNat
  let amount ← safeAdd amount fractPart
  make amount sym

end Parse

end Asset

end Chain

end Safeos
