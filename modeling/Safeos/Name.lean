import Mathlib.Tactic.TypeStar

/-!
# Names (`chain/name.hpp`, `chain/name.cpp`)

An account, permission or action name is a 64-bit value. `stringToName` packs up to twelve
characters of `.12345a-z` into 5-bit slots from the top, and a thirteenth into the low four
bits; `Name.toString` reads the thirteen slots back and trims the trailing dots. A C string is
the list of its characters before the terminating NUL.
-/

namespace Safeos

/-- `eosio::chain::name`: a 64-bit value, compared as an unsigned integer. -/
structure Name where
  value : UInt64
deriving DecidableEq, Repr, Inhabited

namespace Name

instance : LT Name := ⟨fun a b => a.value < b.value⟩
instance : LE Name := ⟨fun a b => a.value ≤ b.value⟩
instance (a b : Name) : Decidable (a < b) := inferInstanceAs (Decidable (a.value < b.value))
instance (a b : Name) : Decidable (a ≤ b) := inferInstanceAs (Decidable (a.value ≤ b.value))

/-- `name::empty`. -/
def empty (n : Name) : Bool := n.value == 0

end Name

/-- `char_to_symbol`: `a`-`z` to 6..31, `1`-`5` to 1..5, anything else to 0. -/
def charToSymbol (c : Char) : UInt64 :=
  if 'a' ≤ c ∧ c ≤ 'z' then (c.toNat - 'a'.toNat + 6).toUInt64
  else if '1' ≤ c ∧ c ≤ '5' then (c.toNat - '1'.toNat + 1).toUInt64
  else 0

/-- The loop of `string_to_name` from slot `i`: the first twelve characters go to 5-bit slots
from the top; when the loop reaches `i = 12` the next character fills the low four bits. -/
def stringToNameAux : List Char → Nat → UInt64 → UInt64
  | [], _, name => name
  | c :: cs, i, name =>
    if i < 12 then
      stringToNameAux cs (i + 1) (name ||| ((charToSymbol c &&& 0x1f) <<< (64 - 5 * (i + 1)).toUInt64))
    else name ||| (charToSymbol c &&& 0x0f)

/-- `string_to_name` on a C string. -/
def stringToName (str : List Char) : Name := ⟨stringToNameAux str 0 0⟩

/-- The character map of `name::operator string`. -/
def nameCharmap : List Char := ".12345abcdefghijklmnopqrstuvwxyz".toList

/-- The loop of `name::operator string` from `i = 1`: each step writes the next 5-bit slot,
right to left, in front of the characters already written. -/
def nameSlotsAux : Nat → UInt64 → List Char → List Char
  | 0, _, str => str
  | k + 1, tmp, str => nameSlotsAux k (tmp >>> 5) (nameCharmap.getD (tmp &&& 0x1f).toNat '.' :: str)

/-- The thirteen characters `name::operator string` writes before trimming. -/
def nameSlots (v : UInt64) : List Char :=
  nameSlotsAux 12 (v >>> 4) [nameCharmap.getD (v &&& 0x0f).toNat '.']

/-- `name::operator string`: the thirteen slots with the trailing dots trimmed. -/
def Name.toString (n : Name) : List Char :=
  ((nameSlots n.value).reverse.dropWhile (· == '.')).reverse

/-- `to_string().find(prefix) == 0`. -/
def Name.startsWith (n : Name) (pre : List Char) : Bool :=
  pre.isPrefixOf n.toString

/-- `name::set`: a C string of at most thirteen characters, stored as `string_to_name`, and kept
only if it reads back as itself. -/
def Name.set (str : List Char) : Except String Name :=
  -- `strnlen(str, 14)`
  if min str.length 14 ≤ 13 then
    if (stringToName str).toString = str then .ok (stringToName str)
    else .error "Name not properly normalized (name: ${name}, normalized: ${normalized}) "
  else .error "Name is longer than 13 characters (${name}) "

namespace Config

/-- `config::system_account_name`. -/
def systemAccountName : Name := stringToName "eosio".toList
/-- `config::owner_name`. -/
def ownerName : Name := stringToName "owner".toList
/-- `config::active_name`. -/
def activeName : Name := stringToName "active".toList
/-- `config::eosio_any_name`. -/
def eosioAnyName : Name := stringToName "eosio.any".toList
/-- `config::eosio_code_name`. -/
def eosioCodeName : Name := stringToName "eosio.code".toList

end Config

end Safeos
