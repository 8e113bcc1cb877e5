import FixedIL.Machine.Word
import Mathlib.Algebra.Group.Int.Defs
import Mathlib.Algebra.Group.Nat.Defs

/-!
Registers that hold signed 32-bit numbers. Such a word is the sign extension of its low
half, and the operations of both widths act on it as they do on the number.
-/
namespace FixedIL
namespace Word

def ofInt32 (v : Int32) : Word := ofInt64 v.toInt64

def low (w : Word) : Int32 := w.toUInt32.toInt32

theorem lowOfInt64 (n : Int64) : low (ofInt64 n) = n.toInt32 :=
  Int32.toBitVec_inj.mp (BitVec.signExtend_eq_setWidth_of_le n.toBitVec (by decide)).symm

theorem lowOfInt32 (v : Int32) : low (ofInt32 v) = v :=
  (lowOfInt64 v.toInt64).trans (Int32.toInt32_toInt64 v)

theorem toInt64OfInt32 (v : Int32) : (ofInt32 v).toInt64 = v.toInt64 := rfl

theorem toUInt32OfInt32 (v : Int32) : (ofInt32 v).toUInt32 = v.toUInt32 :=
  congrArg Int32.toUInt32 (lowOfInt32 v)

theorem ofInt32Injective {x y : Int32} (same : ofInt32 x = ofInt32 y) : x = y := by
  rw [← lowOfInt32 x, same, lowOfInt32]

theorem normalizeI32 (w : Word) : normalize .i32 w = ofInt32 (low w) := rfl

theorem normalizeOfInt32 (v : Int32) : normalize .i32 (ofInt32 v) = ofInt32 v := by
  rw [normalizeI32, lowOfInt32]

theorem unsignedI32 (w : Word) : unsigned .i32 w = w.toUInt32.toUInt64 := by
  apply UInt64.toNat_inj.mp
  simpa [unsigned] using Nat.and_two_pow_sub_one_eq_mod w.toNat 32

theorem lowAdd (a b : Word) : low (a + b) = low a + low b := by simp [low]

theorem lowSub (a b : Word) : low (a - b) = low a - low b := by simp [low]

theorem lowXor (a b : Word) : low (a ^^^ b) = low a ^^^ low b := by simp [low]

theorem lowShiftLeft (w : Word) : low (w <<< 16) = low w <<< 16 := by
  have half : (w <<< 16).toUInt32 = w.toUInt32 <<< 16 :=
    UInt64.toUInt32_shiftLeft w 16 (by decide)
  simp only [low, half]
  rfl

theorem shiftRightOfInt32 (v : Int32) : v.toInt64 >>> 16 = (v >>> 16).toInt64 := by
  apply Int64.toInt_inj.mp
  have wide : (v.toInt64 >>> 16).toInt = v.toInt64.toInt >>> (16 : Nat) := BitVec.toInt_sshiftRight
  have narrow : (v >>> 16).toInt = v.toInt >>> (16 : Nat) := BitVec.toInt_sshiftRight
  rw [wide, Int32.toInt_toInt64, Int32.toInt_toInt64, narrow]

theorem toIntSplit (w : Word) :
    w.toInt64.toInt = if w.toNat < 2 ^ 63 then (w.toNat : Int) else w.toNat - 2 ^ 64 := by
  have cond : w.toInt64.toInt =
      if 2 * w.toNat < 2 ^ 64 then (w.toNat : Int) else w.toNat - (2 ^ 64 : Nat) :=
    BitVec.toInt_eq_toNat_cond w.toBitVec
  rw [cond]
  split <;> split <;> omega

theorem intOfSmall {w : Word} (small : w.toNat < 2 ^ 63) : w.toInt64.toInt = w.toNat :=
  (toIntSplit w).trans (if_pos small)

theorem natOfNonneg {n : Int64} (nonneg : 0 ≤ n.toInt) : (n.toUInt64.toNat : Int) = n.toInt := by
  have split : n.toInt = if n.toUInt64.toNat < 2 ^ 63 then (n.toUInt64.toNat : Int)
      else n.toUInt64.toNat - 2 ^ 64 := toIntSplit n.toUInt64
  have bound := n.toUInt64.toNat_lt
  split at split <;> omega

theorem shiftRightInt (n : Int64) {s : Int64} {k : Nat}
    (amount : (s.toBitVec.smod 64).toNat = k) : (n >>> s).toInt = n.toInt / 2 ^ k := by
  have shifted : (n >>> s).toInt = n.toInt >>> (s.toBitVec.smod 64).toNat :=
    BitVec.toInt_sshiftRight
  rw [shifted, amount, Int.shiftRight_eq_div_pow, Int.natCast_pow]
  rfl

def isNarrow : Ty → Bool
  | .i1 | .i8 | .i16 | .i32 => true
  | _ => false

theorem narrowUnsigned {t : Ty} (narrow : isNarrow t = true) (w : Word) :
    normalize t (unsigned t w) = normalize t (unsigned .i32 w) := by
  have masked (k : Nat) (mask : UInt64) (bits : mask.toNat = 2 ^ k - 1) :
      (w &&& mask).toNat = w.toNat % 2 ^ k := by
    rw [UInt64.toNat_and, bits, Nat.and_two_pow_sub_one_eq_mod]
  cases t with
  | i1 =>
    have bit : w &&& 0xffffffff &&& 1 = w &&& 1 := by rw [UInt64.and_assoc]; rfl
    simp only [normalize, unsigned, bit, UInt64.and_assoc, UInt64.and_self]
  | i8 =>
    have byte : (w &&& 0xff).toUInt8 = (w &&& 0xffffffff).toUInt8 := by
      apply UInt8.toNat_inj.mp
      rw [UInt64.toNat_toUInt8, UInt64.toNat_toUInt8, masked 8 0xff rfl, masked 32 0xffffffff rfl]
      omega
    simp only [normalize, unsigned, byte]
  | i16 =>
    have half : (w &&& 0xffff).toUInt16 = (w &&& 0xffffffff).toUInt16 := by
      apply UInt16.toNat_inj.mp
      rw [UInt64.toNat_toUInt16, UInt64.toNat_toUInt16, masked 16 0xffff rfl,
        masked 32 0xffffffff rfl]
      omega
    simp only [normalize, unsigned, half]
  | i32 => rfl
  | _ => cases narrow

theorem wideUnsigned {t : Ty} (wide : isNarrow t = false) (w : Word) :
    normalize t (unsigned t w) = w ∧ normalize t (unsigned .i32 w) = unsigned .i32 w := by
  cases t with
  | i1 | i8 | i16 | i32 => cases wide
  | _ => exact ⟨rfl, rfl⟩

theorem unsignedOfInt64 (n : Int64) :
    unsigned .i32 (ofInt64 n) = ofInt64 n ↔ 0 ≤ n ∧ n < 4294967296 := by
  have small : unsigned .i32 (ofInt64 n) = ofInt64 n ↔ (ofInt64 n).toNat < 2 ^ 32 := by
    rw [unsignedI32, ← UInt64.toNat_inj, UInt32.toNat_toUInt64, UInt64.toNat_toUInt32]
    omega
  have signed := toIntSplit (ofInt64 n)
  have bound := (ofInt64 n).toNat_lt
  have number : (ofInt64 n).toInt64 = n := rfl
  rw [small, Int64.le_iff_toInt_le, Int64.lt_iff_toInt_lt]
  rw [number] at signed
  have zero : (0 : Int64).toInt = 0 := rfl
  have limit : (4294967296 : Int64).toInt = 4294967296 := rfl
  rw [zero, limit, signed]
  split <;> omega

theorem isTrueOfBool (b : Bool) : (ofBool b).isTrue = b := by cases b <;> rfl

theorem lowBit (w : Word) : w &&& 1 = 0 ∨ w &&& 1 = 1 := by
  have bit : (w &&& 1).toNat = w.toNat % 2 := by
    rw [UInt64.toNat_and]
    exact Nat.and_two_pow_sub_one_eq_mod w.toNat 1
  rcases Nat.mod_two_eq_zero_or_one w.toNat with zero | one
  · exact .inl (UInt64.toNat_inj.mp (bit.trans zero))
  · exact .inr (UInt64.toNat_inj.mp (bit.trans one))

theorem ofBoolInjective {b c : Bool} (same : ofBool b = ofBool c) : b = c := by
  rw [← isTrueOfBool b, same, isTrueOfBool]

end Word
end FixedIL
