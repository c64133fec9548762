import Safeos.Name

/-!
# Names in the contract library (`eosiolib/types.hpp`)

The contract library keeps its own copies of the name functions. `char_to_symbol` and the
thirteen-character loop of `name::to_string` are the chain's, character for character (the
sources say to keep them in sync), and are taken from `Safeos.Name`. `string_to_name` runs its
loop thirteen times whatever the length of the string, and `name::to_string` trims the trailing
dots with `find_last_not_of`, which leaves the thirteen dots of the empty name.

`name_suffix` scans the twelve 5-bit slots from the top, remembering the bit position of the
last dot it passed (`tmp`) and, at each other character, the position of the dot before it
(`remaining_bits_after_last_actual_dot`); it then moves the slots after that dot to the top.
-/

namespace Safeos

namespace Eosiolib

/-- `eosio::char_to_symbol`, the chain's. -/
def charToSymbol (c : Char) : UInt64 := Safeos.charToSymbol c

/-- One round of the loop of `string_to_name`: slot `i` from the `i`-th character, or zero past
the end of the string. -/
def stringToNameSlot (str : List Char) (i : Nat) : UInt64 :=
  let c : UInt64 := if i < str.length ∧ i ≤ 12 then charToSymbol (str.getD i '.') else 0
  if i < 12 then (c &&& 0x1f) <<< (64 - 5 * (i + 1)).toUInt64 else c &&& 0x0f

/-- The loop of `string_to_name` from round `i`, with `k` rounds left. -/
def stringToNameLoop (str : List Char) : Nat → Nat → UInt64 → UInt64
  | 0, _, value => value
  | k + 1, i, value => stringToNameLoop str k (i + 1) (value ||| stringToNameSlot str i)

/-- `eosio::string_to_name`: rounds `i = 0` to `12`. -/
def stringToName (str : List Char) : UInt64 := stringToNameLoop str 13 0 0

/-- `std::string::find_last_not_of(c)`: the index of the last character other than `c`. -/
def findLastNotOf (c : Char) (str : List Char) : Option Nat :=
  (str.reverse.findIdx? (· != c)).map fun j => str.length - 1 - j

/-- `name::trim_right_dots`: cut after the last character that is not a dot, if there is one. -/
def trimRightDots (str : List Char) : List Char :=
  match findLastNotOf '.' str with
  | some last => str.take (last + 1)
  | none => str

/-- `name::to_string`. -/
def nameToString (value : UInt64) : List Char := trimRightDots (nameSlots value)

/-- The loop of `name_suffix` from `remaining_bits` down by 5 while it is at least 4, returning
`(remaining_bits_after_last_actual_dot, tmp)`. The counter is a signed `int32_t` that leaves the
loop at `-1`; on `Nat` it leaves at `0`, which fails the same test. -/
def nameSuffixLoop (n : UInt64) (remainingBits : Nat) (rbald tmp : UInt32) : UInt32 × UInt32 :=
  if remainingBits ≥ 4 then
    -- Get characters one-by-one in name in order from left to right
    let c := (n >>> remainingBits.toUInt64) &&& 0x1F
    if c = 0 then nameSuffixLoop n (remainingBits - 5) rbald remainingBits.toUInt32
    else nameSuffixLoop n (remainingBits - 5) tmp tmp
  else (rbald, tmp)
termination_by remainingBits
decreasing_by all_goals omega

/-- `eosio::name_suffix`. -/
def nameSuffix (n : UInt64) : UInt64 :=
  let (rbald, tmp) := nameSuffixLoop n 59 0 0
  let thirteenthCharacter := n &&& 0x0F
  -- if 13th character is not a dot
  let rbald := if thirteenthCharacter ≠ 0 then tmp else rbald
  if rbald = 0 then n
  else
    let mask : UInt64 := (1 <<< rbald.toUInt64) - 16
    let shift : UInt32 := 64 - rbald
    ((n &&& mask) <<< shift.toUInt64) + (thirteenthCharacter <<< (shift - 1).toUInt64)

end Eosiolib

end Safeos
