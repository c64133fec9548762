import Safeos.Varint
import Mathlib.Data.Nat.Bitwise
import Mathlib.Tactic.Ring

/-!
# The varint codec

Every `uint32_t` is read back from the bytes `unsigned_int` writes, which are one to five, and the
read stops after them (`unpackUnsignedInt_pack`). The read is exact on any value whose groups
fit the 32 bits, so `signed_int` reads back the zig-zag word it wrote; but its inverse of the
zig-zag map is wrong once bit 31 of the word is set.
-/

namespace Safeos

namespace Varint

/-- A group and its continuation bit, as written, read back by the masks. -/
theorem group_byte : ∀ n < 128,
    ((UInt8.ofNat n ||| 0x80) &&& 0x7f).toNat = n ∧ (UInt8.ofNat n ||| 0x80) &&& 0x80 ≠ 0 ∧
      ((UInt8.ofNat n ||| 0) &&& 0x7f).toNat = n ∧ ¬(UInt8.ofNat n ||| 0) &&& 0x80 ≠ 0 := by
  decide

theorem toNat_and_0x7f (val : UInt64) : (val.toUInt8 &&& 0x7f) = UInt8.ofNat (val.toNat % 128) := by
  rw [← UInt8.toNat_inj, UInt8.toNat_and, UInt64.toNat_toUInt8, UInt8.toNat_ofNat]
  change val.toNat % 2 ^ 8 &&& (2 ^ 7 - 1) = _
  rw [Nat.and_two_pow_sub_one_eq_mod, UInt8.toNat_ofNat']
  omega

theorem shiftRight_seven_toNat (val : UInt64) : (val >>> 7).toNat = val.toNat / 128 := by
  rw [UInt64.toNat_shiftRight, Nat.shiftRight_eq_div_pow]
  rfl

/-- One round of the write loop, on the value's number. -/
theorem writeGroups_eq (val : UInt64) :
    writeGroups val =
      (UInt8.ofNat (val.toNat % 128) ||| (if 128 ≤ val.toNat then 0x80 else 0)) ::
        if 128 ≤ val.toNat then writeGroups (val >>> 7) else [] := by
  have hshift := shiftRight_seven_toNat val
  have hzero : val >>> 7 = 0 ↔ val.toNat < 128 := by
    rw [← UInt64.toNat_inj, hshift]
    simp only [UInt64.toNat_zero]
    omega
  rw [writeGroups]
  by_cases hv : 128 ≤ val.toNat
  · have hne : ¬val >>> 7 = 0 := fun h => absurd (hzero.1 h) (by omega)
    have hpos : val >>> 7 > 0 := by
      show (0 : UInt64) < val >>> 7
      rw [UInt64.lt_iff_toNat_lt, hshift]
      simp only [UInt64.toNat_zero]
      omega
    simp only [dif_neg hne, if_pos hpos, if_pos hv, toNat_and_0x7f]
  · have hz : val >>> 7 = 0 := hzero.2 (by omega)
    have hnpos : ¬(0 : UInt64) > 0 := by decide
    simp only [hz, dif_pos, if_neg hv, if_neg hnpos, toNat_and_0x7f]

/-- A group ORed in above the bits read so far adds its value at its shift. -/
theorem or_shiftLeft_toNat {v x s : UInt32} (hv : v.toNat < 2 ^ s.toNat)
    (hx : x.toNat * 2 ^ s.toNat < 2 ^ 32) : (v ||| x <<< s).toNat = v.toNat + x.toNat * 2 ^ s.toNat := by
  have hshift : (x <<< s).toNat = x.toNat * 2 ^ s.toNat := by
    rw [UInt32.toNat_shiftLeft, Nat.shiftLeft_eq]
    by_cases hx0 : x.toNat = 0
    · simp [hx0]
    -- a nonzero group fits only below bit 32, so the shift is taken as it is
    have hs : s.toNat < 32 := by
      by_contra hs
      have h1 : 2 ^ 32 ≤ 2 ^ s.toNat := Nat.pow_le_pow_right (by omega) (by omega)
      have h2 : 2 ^ s.toNat ≤ x.toNat * 2 ^ s.toNat := Nat.le_mul_of_pos_left _ (by omega)
      omega
    rw [Nat.mod_eq_of_lt hs, Nat.mod_eq_of_lt hx]
  rw [UInt32.toNat_or, hshift, Nat.lor_comm, Nat.mul_comm, ← Nat.two_pow_add_eq_or_of_lt hv]
  ring

/-- The read loop takes back, from the bytes the write loop wrote, a value whose groups fit in
32 bits at `shift`, and leaves the bytes after them. -/
theorem readGroups_writeGroups (rest : List UInt8) :
    ∀ (val : UInt64) (v s : UInt32), v.toNat < 2 ^ s.toNat →
      v.toNat + val.toNat * 2 ^ s.toNat < 2 ^ 32 →
      readGroups v s (writeGroups val ++ rest) =
        .ok (UInt32.ofNat (v.toNat + val.toNat * 2 ^ s.toNat), rest) := by
  intro val
  induction hn : val.toNat using Nat.strong_induction_on generalizing val with
  | _ n ih =>
    intro v s hv hfit
    obtain ⟨hlow₁, hhigh₁, hlow₀, hhigh₀⟩ := group_byte (n % 128) (Nat.mod_lt _ (by omega))
    have hg : n % 128 * 2 ^ s.toNat ≤ n * 2 ^ s.toNat := Nat.mul_le_mul_right _ (Nat.mod_le _ _)
    rw [writeGroups_eq, hn]
    by_cases hmore : 128 ≤ n
    · -- more groups follow, and the next shift is still below 32
      rw [if_pos hmore, if_pos hmore, List.cons_append, readGroups, if_pos hhigh₁]
      have hpow : 2 ^ (s.toNat + 7) = 128 * 2 ^ s.toNat := by rw [pow_add]; ring
      have h128 : 128 * 2 ^ s.toNat ≤ n * 2 ^ s.toNat := Nat.mul_le_mul_right _ hmore
      have hs : s.toNat + 7 < 32 :=
        (Nat.pow_lt_pow_iff_right (show 1 < 2 by omega)).1 (by rw [hpow]; omega)
      have hs7 : (s + 7).toNat = s.toNat + 7 := by
        rw [UInt32.toNat_add]
        simp only [UInt32.reduceToNat]
        omega
      have hgroup : ((UInt8.ofNat (n % 128) ||| 0x80) &&& 0x7f).toUInt32.toNat = n % 128 := by
        rw [UInt8.toNat_toUInt32, hlow₁]
      have hv' := or_shiftLeft_toNat hv (by rw [hgroup]; omega)
      rw [hgroup] at hv'
      have hlow : n % 128 * 2 ^ s.toNat ≤ 127 * 2 ^ s.toNat :=
        Nat.mul_le_mul_right _ (by omega)
      have hrest : n / 128 * (128 * 2 ^ s.toNat) ≤ n * 2 ^ s.toNat := by
        rw [← Nat.mul_assoc]
        exact Nat.mul_le_mul_right _ (Nat.div_mul_le_self n 128)
      have hsum : n / 128 * (128 * 2 ^ s.toNat) + n % 128 * 2 ^ s.toNat = n * 2 ^ s.toNat := by
        conv_rhs => rw [← Nat.div_add_mod n 128]
        ring
      have hnext := shiftRight_seven_toNat val
      rw [hn] at hnext
      rw [ih (n / 128) (by omega) _ hnext _ _ (by rw [hv', hs7, hpow]; omega)
        (by rw [hv', hs7, hpow]; omega), hv', hs7, hpow]
      congr 3
      omega
    · -- the last group
      rw [if_neg hmore, if_neg hmore, List.cons_append, List.nil_append, readGroups,
        if_neg hhigh₀]
      have hgroup : ((UInt8.ofNat (n % 128) ||| 0) &&& 0x7f).toUInt32.toNat = n := by
        rw [UInt8.toNat_toUInt32, hlow₀]
        omega
      congr 2
      rw [← UInt32.toNat_inj, or_shiftLeft_toNat hv (by rw [hgroup]; omega), hgroup,
        UInt32.toNat_ofNat', Nat.mod_eq_of_lt hfit]

/-- The bytes the write loop emits: one per group of seven bits, so at most `k + 1` for a value
below `128 ^ (k + 1)`, and never none. -/
theorem writeGroups_length_le (k : Nat) :
    ∀ val : UInt64, val.toNat < 128 ^ (k + 1) → (writeGroups val).length ≤ k + 1 := by
  induction k with
  | zero =>
    intro val hval
    have hlast : ¬128 ≤ val.toNat := by omega
    rw [writeGroups_eq, if_neg hlast, if_neg hlast]
    rfl
  | succ k ih =>
    intro val hval
    rw [writeGroups_eq]
    by_cases hmore : 128 ≤ val.toNat
    · have hnext : (val >>> 7).toNat < 128 ^ (k + 1) := by
        rw [shiftRight_seven_toNat, Nat.div_lt_iff_lt_mul (by omega), ← Nat.pow_succ]
        exact hval
      rw [if_pos hmore, if_pos hmore, List.length_cons]
      have := ih _ hnext
      omega
    · rw [if_neg hmore, if_neg hmore, List.length_singleton]
      omega

theorem writeGroups_ne_nil (val : UInt64) : writeGroups val ≠ [] := by
  rw [writeGroups_eq]
  exact List.cons_ne_nil _ _

/-- Reading from the start, the read loop takes back a whole 32-bit word. -/
theorem readGroups_writeGroups_toUInt64 (u : UInt32) (rest : List UInt8) :
    readGroups 0 0 (writeGroups u.toUInt64 ++ rest) = .ok (u, rest) := by
  have hu := u.toNat_lt
  rw [readGroups_writeGroups rest u.toUInt64 0 0 (by simp) (by simp; omega)]
  simp

/-- `unsigned_int` round trip: every `uint32_t` is read back from the one to five bytes
`operator<<` writes, and the read stops right after them. -/
theorem unpackUnsignedInt_pack (u : UInt32) (rest : List UInt8) :
    unpackUnsignedInt (packUnsignedInt u ++ rest) = .ok (u, rest) ∧
      1 ≤ (packUnsignedInt u).length ∧ (packUnsignedInt u).length ≤ 5 := by
  have hu := u.toNat_lt
  refine ⟨readGroups_writeGroups_toUInt64 u rest, ?_, ?_⟩
  · exact List.length_pos_iff.2 (writeGroups_ne_nil _)
  · exact writeGroups_length_le 4 _ (by simp; omega)

/-! ## The zig-zag map and the contract's inverse -/

theorem zigZag_toBitVec (x : Int32) :
    (zigZag x).toBitVec = (x.toBitVec <<< 1) ^^^ x.toBitVec.sshiftRight 31 := by
  simp [zigZag, Int32.toBitVec_shiftLeft, Int32.toBitVec_shiftRight]

/-- The zig-zag word, from the value's two's complement pattern: twice a nonnegative value, and
one less than twice the magnitude of a negative one. -/
theorem zigZag_toNat (x : Int32) :
    (zigZag x).toNat =
      if x.toBitVec.toNat < 2 ^ 31 then 2 * x.toBitVec.toNat else 2 ^ 33 - 1 - 2 * x.toBitVec.toNat := by
  have ht := x.toBitVec.isLt
  rw [← UInt32.toNat_toBitVec, zigZag_toBitVec]
  by_cases h : x.toBitVec.toNat < 2 ^ 31
  · -- a nonnegative value shifts in zeros
    have hm : x.toBitVec.msb = false := BitVec.msb_eq_false_iff_two_mul_lt.mpr (by omega)
    have hz : x.toBitVec.sshiftRight 31 = 0#32 := by
      apply BitVec.eq_of_toNat_eq
      rw [BitVec.sshiftRight_eq_of_msb_false hm, BitVec.toNat_ushiftRight, Nat.shiftRight_eq_div_pow,
        BitVec.toNat_ofNat]
      omega
    rw [hz, BitVec.xor_zero, BitVec.toNat_shiftLeft, Nat.shiftLeft_eq, if_pos h]
    omega
  · -- a negative one shifts in ones
    have hm : x.toBitVec.msb = true := BitVec.msb_eq_true_iff_two_mul_ge.mpr (by omega)
    have hz : x.toBitVec.sshiftRight 31 = BitVec.allOnes 32 := by
      apply BitVec.eq_of_toNat_eq
      rw [BitVec.sshiftRight_eq_of_msb_true hm, BitVec.toNat_not, BitVec.toNat_ushiftRight,
        Nat.shiftRight_eq_div_pow, BitVec.toNat_not, BitVec.toNat_allOnes]
      omega
    rw [hz, BitVec.xor_allOnes, BitVec.toNat_not, BitVec.toNat_shiftLeft, Nat.shiftLeft_eq, if_neg h]
    omega

theorem and_one_toNat (w : UInt32) : (w &&& 1).toNat = w.toNat % 2 := by
  rw [UInt32.toNat_and]
  change w.toNat &&& (2 ^ 1 - 1) = _
  rw [Nat.and_two_pow_sub_one_eq_mod]

/-- The decoder's word before the signs: `(v >> 1) ^ (v >> 31)`, where `v >> 31` is the top bit
alone, the shift being of an unsigned word. -/
theorem magnitude_toNat (w : UInt32) :
    (w >>> 1 ^^^ w >>> 31).toNat = w.toNat / 2 ^^^ w.toNat / 2 ^ 31 := by
  rw [UInt32.toNat_xor, UInt32.toNat_shiftRight, UInt32.toNat_shiftRight]
  simp only [UInt32.reduceToNat, Nat.reduceMod, Nat.shiftRight_eq_div_pow]

theorem magnitude_lt (w : UInt32) : w.toNat / 2 ^^^ w.toNat / 2 ^ 31 < 2 ^ 31 := by
  have hw := w.toNat_lt
  apply Nat.xor_lt_two_pow <;> omega

/-- The decoded value's bit pattern: the magnitude word `e`, negated as `-(e + 1)` for an odd
word. -/
theorem unZigZag_toNat (w : UInt32) :
    (unZigZag w).toBitVec.toNat =
      if w.toNat % 2 = 1 then 2 ^ 32 - ((w.toNat / 2 ^^^ w.toNat / 2 ^ 31) + 1)
      else w.toNat / 2 ^^^ w.toNat / 2 ^ 31 := by
  have hd := and_one_toNat w
  have he := magnitude_toNat w
  have hlt := magnitude_lt w
  unfold unZigZag
  by_cases hodd : w.toNat % 2 = 1
  · have hne : w &&& 1 ≠ 0 := fun h0 => by rw [h0] at hd; simp at hd; omega
    simp only [if_pos hne, Int32.toBitVec_neg, UInt32.toBitVec_toInt32, BitVec.toNat_neg,
      UInt32.toNat_toBitVec, UInt32.toNat_add, he, hd, hodd, if_true]
    omega
  · have hz : w &&& 1 = 0 := UInt32.toNat_inj.1 (by rw [hd]; simp; omega)
    simp only [hz, ne_eq, not_true_eq_false, if_false, Int32.toBitVec_neg, BitVec.neg_neg,
      UInt32.toBitVec_toInt32, UInt32.add_zero, UInt32.toNat_toBitVec, he, hodd]

theorem xor_one_ne (a : Nat) : a ^^^ 1 ≠ a := by
  intro h
  have h1 : a ^^^ 1 ^^^ a = 1 := by rw [Nat.xor_comm a 1, Nat.xor_assoc, Nat.xor_self, Nat.xor_zero]
  rw [h, Nat.xor_self] at h1
  omega

/-- The contract's decoder inverts the zig-zag map exactly on `[-2^30, 2^30)`, the values whose
word has bit 31 clear: there `v >> 31` is `0`, while elsewhere it flips bit 0 of the magnitude. -/
theorem unZigZag_zigZag_iff (x : Int32) :
    unZigZag (zigZag x) = x ↔ -2 ^ 30 ≤ x.toInt ∧ x.toInt < 2 ^ 30 := by
  have ht := x.toBitVec.isLt
  have hint := BitVec.toInt_eq_toNat_cond x.toBitVec
  rw [Int32.toInt_toBitVec] at hint
  have hn := zigZag_toNat x
  rw [← Int32.toBitVec_inj, ← BitVec.toNat_inj, unZigZag_toNat, hint]
  generalize (zigZag x).toNat = n at *
  generalize x.toBitVec.toNat = t at *
  by_cases h : t < 2 ^ 31
  · -- a nonnegative value: an even word, whose top bit is bit 30 of the value
    rw [if_pos h] at hn
    subst hn
    rw [if_neg (by omega), show 2 * t / 2 = t by omega, if_pos (by omega)]
    by_cases hsmall : t < 2 ^ 30
    · rw [show 2 * t / 2 ^ 31 = 0 by omega, Nat.xor_zero]
      omega
    · rw [show 2 * t / 2 ^ 31 = 1 by omega]
      have := xor_one_ne t
      omega
  · -- a negative value: an odd word, whose top bit is clear only down to -2^30
    rw [if_neg h] at hn
    subst hn
    rw [if_pos (by omega), show (2 ^ 33 - 1 - 2 * t) / 2 = 2 ^ 32 - 1 - t by omega, if_neg (by omega)]
    by_cases hsmall : 2 ^ 32 - 2 ^ 30 ≤ t
    · rw [show (2 ^ 33 - 1 - 2 * t) / 2 ^ 31 = 0 by omega, Nat.xor_zero]
      omega
    · rw [show (2 ^ 33 - 1 - 2 * t) / 2 ^ 31 = 1 by omega]
      have := xor_one_ne (2 ^ 32 - 1 - t)
      have : (2 ^ 32 - 1 - t) ^^^ 1 < 2 ^ 31 := Nat.xor_lt_two_pow (by omega) (by omega)
      omega

/-- `signed_int` round trip: the bytes `operator<<` writes for `x`, followed by anything, are
read back as `x` exactly when `-2^30 ≤ x < 2^30`; from `2^30` up and below `-2^30` the zig-zag
word has bit 31 set and the decoder returns another value. -/
theorem unpackSignedInt_pack_iff (x : Int32) (rest : List UInt8) :
    unpackSignedInt (packSignedInt x ++ rest) = .ok (x, rest) ↔
      -2 ^ 30 ≤ x.toInt ∧ x.toInt < 2 ^ 30 := by
  have hread := readGroups_writeGroups_toUInt64 (zigZag x) rest
  unfold unpackSignedInt packSignedInt
  rw [hread]
  change Except.ok (unZigZag (zigZag x), rest) = Except.ok (x, rest) ↔ _
  rw [Except.ok.injEq, Prod.mk.injEq, and_iff_left rfl, unZigZag_zigZag_iff]

example : packSignedInt 1073741824 = [0x80, 0x80, 0x80, 0x80, 0x08] ∧
    unpackSignedInt [0x80, 0x80, 0x80, 0x80, 0x08] = .ok (1073741825, []) :=
  ⟨by decide +kernel, rfl⟩

end Varint

end Safeos
