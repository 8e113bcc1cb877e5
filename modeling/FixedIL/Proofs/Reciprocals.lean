import FixedIL.Fixed
import FixedIL.Proofs.Words

/-!
The words of division and square root as numbers. A magnitude is an absolute value, a reciprocal an
integer quotient, and their product scaled down is exact as long as it keeps to 64 bits, which it
does for the magnitudes of any two encodings.
-/
namespace FixedIL.Fixed

theorem intSplit (v : Q16) :
    v.toInt = if v.toUInt32.toNat < 2 ^ 31 then (v.toUInt32.toNat : Int)
      else v.toUInt32.toNat - 2 ^ 32 := by
  have cond : v.toInt = if 2 * v.toUInt32.toNat < 2 ^ 32 then (v.toUInt32.toNat : Int)
      else v.toUInt32.toNat - (2 ^ 32 : Nat) := BitVec.toInt_eq_toNat_cond v.toBitVec
  rw [cond]
  split <;> split <;> omega

theorem negativeIff (v : Q16) : v < 0 ↔ v.toInt < 0 := Int32.lt_iff_toInt_lt

theorem nonzeroInt {v : Q16} (nonzero : v ≠ 0) : v.toInt ≠ 0 :=
  fun zero => nonzero (Int32.toInt_inj.mp zero)

theorem signsDiffer (a b : Q16) : a ^^^ b < 0 ↔ ¬ (a.toInt < 0 ↔ b.toInt < 0) := by
  have sign (v : Q16) : v < 0 ↔ v.toBitVec.msb = true := by
    rw [Int32.lt_iff_toBitVec_slt]
    exact BitVec.slt_zero_iff_msb_cond
  rw [← negativeIff a, ← negativeIff b, sign, sign, sign, Int32.toBitVec_xor, BitVec.msb_xor]
  cases a.toBitVec.msb <;> cases b.toBitVec.msb <;> decide

theorem negInt {v : Q16} (above : -2 ^ 31 < v.toInt) : (neg v).toInt = -v.toInt := by
  have below := v.toInt_lt
  rw [neg, sub, Int32.toInt_sub]
  exact (Int.bmod_eq_of_le (by simp; omega) (by simp; omega)).trans (Int.zero_sub _)

theorem magnitudeNat (v : Q16) : (magnitude v).toNat = v.toInt.natAbs := by
  have value := intSplit v
  have bound := v.toUInt32.toNat_lt
  unfold magnitude
  split
  · rename_i below
    rw [negativeIff] at below
    rw [UInt32.toNat_sub]
    split at value <;> simp <;> omega
  · rename_i above
    rw [negativeIff] at above
    split at value <;> omega

theorem natAbsMost (v : Q16) : v.toInt.natAbs ≤ 2 ^ 31 := by
  have below := v.toInt_lt
  have above := v.le_toInt
  omega

theorem reciprocalNat (d : UInt32) : (reciprocal d).toNat = 2 ^ 31 / d.toNat := UInt32.toNat_div ..

theorem productNat {u r : UInt64} (small : u.toNat * r.toNat * 2 < 2 ^ 64) :
    (u * r).toNat = u.toNat * r.toNat ∧ ((u * r) <<< 1).toNat = u.toNat * r.toNat * 2 := by
  have product : (u * r).toNat = u.toNat * r.toNat :=
    (UInt64.toNat_mul u r).trans (Nat.mod_eq_of_lt (by omega))
  refine ⟨product, ?_⟩
  rw [UInt64.toNat_shiftLeft, product, Nat.shiftLeft_eq]
  exact Nat.mod_eq_of_lt small

theorem scaleByNat {u r : UInt64} (small : u.toNat * r.toNat * 2 < 2 ^ 64) :
    (scaleBy u r).toNat = u.toNat * r.toNat / 2 ^ 15 := by
  rw [scaleBy, UInt64.toNat_shiftRight, (productNat small).2, Nat.shiftRight_eq_div_pow]
  exact Nat.mul_div_mul_right _ (2 ^ 15) (by decide : 0 < 2)

theorem productWords (a b : Q16) :
    (magnitude a).toUInt64.toNat * (reciprocal (magnitude b)).toUInt64.toNat =
      a.toInt.natAbs * (2 ^ 31 / b.toInt.natAbs) := by
  rw [UInt32.toNat_toUInt64, UInt32.toNat_toUInt64, magnitudeNat, reciprocalNat, magnitudeNat]

theorem productSmall (a b : Q16) :
    (magnitude a).toUInt64.toNat * (reciprocal (magnitude b)).toUInt64.toNat * 2 < 2 ^ 64 := by
  rw [productWords]
  have most := Nat.mul_le_mul (natAbsMost a) (Nat.div_le_self (2 ^ 31) b.toInt.natAbs)
  omega

namespace Sqrt

theorem clampRange {g : Int64} (positive : 0 < g.toInt) :
    0 < (clamp g).toInt ∧ (clamp g).toInt < 2 ^ 31 := by
  unfold clamp
  split
  · rename_i below
    exact ⟨positive, Int.lt_of_lt_of_le (Int64.lt_iff_toInt_lt.mp below) (by decide)⟩
  · decide

end Sqrt

end FixedIL.Fixed
