import FixedIL.Native.Lane
import FixedIL.Proofs.DivisionAccuracy

/-!
Lane arithmetic is Q16.16 arithmetic: on the unsigned bits of a lane each operation gives the bits
that the one on signed words gives. A result that fits a lane is that of the integers.
-/
namespace FixedIL.Native.Lane

variable {a b : Int32}

theorem addFixed (a b : Int32) : add a b = Fixed.add a b := rfl

theorem subFixed (a b : Int32) : sub a b = Fixed.sub a b := rfl

theorem absFixed (a : Int32) : abs a = Fixed.abs a := rfl

theorem minFixed (a b : Int32) : min a b = Fixed.min a b := rfl

theorem mulFixed (a b : Int32) : mul a b = Fixed.mul a b := Word.lowOfInt64 _

theorem wideFixed (a : Int32) : wideMagnitude a = (Fixed.magnitude a).toUInt64 :=
  (apply_ite UInt32.toUInt64 ..).symm

theorem divFixed (a b : Int32) : div a b = Fixed.div a b := by
  have quotient : ((((wideMagnitude a * (0x80000000 / narrowMagnitude b).toUInt64) <<< 1) >>> 16
      ).toUInt32).toInt32 = Fixed.quotient a b := by
    rw [wideFixed]
    rfl
  rw [div, Fixed.div, ← quotient]
  rfl

theorem addInt (low : -2 ^ 31 ≤ a.toInt + b.toInt) (high : a.toInt + b.toInt < 2 ^ 31) :
    (add a b).toInt = a.toInt + b.toInt := by
  rw [addFixed, Fixed.add, Int32.toInt_add]
  exact Int.bmod_eq_of_le (by omega) (by omega)

theorem subInt (low : -2 ^ 31 ≤ a.toInt - b.toInt) (high : a.toInt - b.toInt < 2 ^ 31) :
    (sub a b).toInt = a.toInt - b.toInt := by
  rw [subFixed, Fixed.sub, Int32.toInt_sub]
  exact Int.bmod_eq_of_le (by omega) (by omega)

theorem productInt (a b : Int32) :
    ((a.toInt64 * b.toInt64) >>> 16).toInt = a.toInt * b.toInt / 65536 := by
  have size := Nat.mul_le_mul (Fixed.natAbsMost a) (Fixed.natAbsMost b)
  rw [← Int.natAbs_mul] at size
  rw [Word.shiftRightInt (k := 16) _ rfl, Int64.toInt_mul, Int32.toInt_toInt64,
    Int32.toInt_toInt64, Int.bmod_eq_of_le (by omega) (by omega)]
  rfl

theorem mulWraps (a b : Int32) : (mul a b).toInt = (a.toInt * b.toInt / 65536).bmod (2 ^ 32) := by
  rw [mulFixed, Fixed.mul, Int64.toInt_toInt32, productInt]

theorem mulInt (low : -2 ^ 31 ≤ a.toInt * b.toInt / 65536)
    (high : a.toInt * b.toInt / 65536 < 2 ^ 31) :
    (mul a b).toInt = a.toInt * b.toInt / 65536 := by
  rw [mulWraps]
  exact Int.bmod_eq_of_le (by omega) (by omega)

theorem mulNat {m n : Nat} (left : a.toInt = m) (right : b.toInt = n)
    (small : m * n / 65536 < 2 ^ 31) : (mul a b).toInt = (m * n / 65536 : Nat) := by
  have product : a.toInt * b.toInt / 65536 = (m * n / 65536 : Nat) := by
    rw [left, right]
    norm_cast
  rw [mulInt (by omega) (by omega), product]

theorem absInt (above : -2 ^ 31 < a.toInt) : (abs a).toInt = a.toInt.natAbs := by
  rw [absFixed, Fixed.abs]
  split
  · rename_i below
    rw [Fixed.negativeIff] at below
    rw [Fixed.negInt above]
    omega
  · rename_i nonneg
    rw [Fixed.negativeIff] at nonneg
    omega

theorem minInt (a b : Int32) : (min a b).toInt = Min.min a.toInt b.toInt := by
  rw [min]
  simp only [Int32.lt_iff_toInt_lt]
  split <;> omega

theorem clampInt (a : Int32) : (clamp01 a).toInt = Max.max 0 (Min.min a.toInt 65536) := by
  rw [clamp01]
  simp only [Int32.lt_iff_toInt_lt, Int32.toInt_zero, show one.toInt = 65536 from rfl]
  split
  · rw [Int32.toInt_zero]
    omega
  · split
    · rw [show one.toInt = 65536 from rfl]
      omega
    · omega

section Quotients

variable (positive : 0 < b.toInt) (small : a.toInt.natAbs * 65536 < 2 ^ 31 * b.toInt)

include positive small

theorem divBounds : (div a b).toInt.natAbs * b.toInt ≤ a.toInt.natAbs * 65536 ∧
    (0 ≤ a.toInt → 0 ≤ (div a b).toInt) := by
  have nonzero : b ≠ 0 := by
    rintro rfl
    exact absurd positive (by decide)
  have divisor : (b.toInt.natAbs : Int) = b.toInt := by omega
  have rest := Fixed.truncatedRest a b
  have most : Fixed.truncated a b * b.toInt ≤ a.toInt.natAbs * 65536 := by
    rw [← divisor]
    exact_mod_cast (by omega : Fixed.truncated a b * b.toInt.natAbs ≤ a.toInt.natAbs * 65536)
  have word : Fixed.truncated a b < 2 ^ 31 := by
    by_contra large
    nlinarith
  have value := Fixed.divValue nonzero word
  rw [← divFixed, Int.sign_eq_one_of_pos positive, Int.mul_one] at value
  rcases lt_trichotomy a.toInt 0 with below | zero | above
  · rw [Int.sign_eq_neg_one_of_neg below, Int.neg_one_mul] at value
    rw [value, Int.natAbs_neg, Int.natAbs_natCast]
    exact ⟨most, fun nonneg => by omega⟩
  · rw [zero, Int.sign_zero, Int.zero_mul] at value
    rw [value, zero]
    exact ⟨by rw [Int.natAbs_zero, Int.natCast_zero, Int.zero_mul, Int.zero_mul], fun _ => le_rfl⟩
  · rw [Int.sign_eq_one_of_pos above, Int.one_mul] at value
    rw [value, Int.natAbs_natCast]
    exact ⟨most, fun _ => Int.natCast_nonneg _⟩

end Quotients

end FixedIL.Native.Lane
