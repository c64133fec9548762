import Mathlib.Tactic.TypeStar

/-!
# Variable-length integers (`eosiolib/varint.hpp`)

`unsigned_int` and `signed_int` are written seven bits a byte, lowest first, with the high bit set
on every byte but the last; `signed_int` first maps its value to the zig-zag word
`(value << 1) ^ (value >> 31)`. Reading ORs the groups back in at shifts `0, 7, 14, …` until a byte
without the high bit, and `signed_int` then undoes the zig-zag with `((v >> 1) ^ (v >> 31)) +
(v & 1)` and two conditional negations.

The data stream is the list of its bytes; a read past its end fails `datastream::get`'s
assertion. `int32_t` is `Int32`: the left shift wraps and the right shift is arithmetic, as the
compilers for the contracts' targets do. The shifts of a 32-bit group by `by` are `UInt32`
shifts, which take `by` modulo 32 as those targets do; the streams written here never reach a
shift of 32.
-/

namespace Safeos

namespace Varint

/-- The loop of both `operator<<`: write the low seven bits, with the high bit set when bits are
left, until none are. -/
def writeGroups (val : UInt64) : List UInt8 :=
  let b := val.toUInt8 &&& 0x7f
  let val' := val >>> 7
  let b := b ||| (if val' > 0 then 0x80 else 0)
  if _h : val' = 0 then [b] else b :: writeGroups val'
termination_by val.toNat
decreasing_by
  have h1 : (val >>> 7).toNat = val.toNat / 2 ^ 7 := by
    rw [UInt64.toNat_shiftRight, Nat.shiftRight_eq_div_pow]
    rfl
  have h2 : (val >>> 7).toNat ≠ 0 := fun h0 => _h (UInt64.toNat_inj.1 h0)
  omega

/-- `unsigned_int::operator<<`. -/
def packUnsignedInt (u : UInt32) : List UInt8 := writeGroups u.toUInt64

/-- The zig-zag word of `signed_int::operator<<`. -/
def zigZag (x : Int32) : UInt32 := ((x <<< 1) ^^^ (x >>> 31)).toUInt32

/-- `signed_int::operator<<`: its `uint32_t` loop writes the same bytes as the `uint64_t` one. -/
def packSignedInt (x : Int32) : List UInt8 := writeGroups (zigZag x).toUInt64

/-- The loop of both `operator>>`: read a byte, OR its seven bits in at `shift`, and go on while its
high bit is set. -/
def readGroups (v shift : UInt32) : List UInt8 → Except String (UInt32 × List UInt8)
  | [] => throw "get"
  | b :: rest =>
    let v := v ||| ((b &&& 0x7f).toUInt32 <<< shift)
    if b &&& 0x80 ≠ 0 then readGroups v (shift + 7) rest else pure (v, rest)

/-- `unsigned_int::operator>>`: its `uint64_t` accumulator receives only the 32-bit groups, and is
cast back to `uint32_t`. -/
def unpackUnsignedInt (bytes : List UInt8) : Except String (UInt32 × List UInt8) :=
  readGroups 0 0 bytes

/-- The end of `signed_int::operator>>`, from the zig-zag word. -/
def unZigZag (v : UInt32) : Int32 :=
  let value := (((v >>> 1) ^^^ (v >>> 31)) + (v &&& 0x01)).toInt32
  let value := if v &&& 0x01 ≠ 0 then value else -value
  let value := -value
  value

/-- `signed_int::operator>>`. -/
def unpackSignedInt (bytes : List UInt8) : Except String (Int32 × List UInt8) := do
  let (v, rest) ← readGroups 0 0 bytes
  pure (unZigZag v, rest)

end Varint

end Safeos
