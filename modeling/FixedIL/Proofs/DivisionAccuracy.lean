import FixedIL.Proofs.Reciprocals
import Mathlib.Algebra.Order.Field.Basic
import Mathlib.Data.Rat.Cast.Order
import Mathlib.Tactic.FieldSimp
import Mathlib.Tactic.Linarith
import Mathlib.Tactic.Positivity
import Mathlib.Tactic.Ring

/-!
How far Q16.16 division comes short of the quotient. Two truncations lose a part of it: the rest of
the reciprocal, which grows with the divisor, and the bits that the last shift cuts. The shares that
they lose add up to the relative error, so that a bound in percent holds exactly for the divisors
whose reciprocal leaves a small rest.
-/
namespace FixedIL.Fixed

variable {a b : Q16}

def truncated (a b : Q16) : Nat := a.toInt.natAbs * (2 ^ 31 / b.toInt.natAbs) / 2 ^ 15

def cutBits (a b : Q16) : Nat := a.toInt.natAbs * (2 ^ 31 / b.toInt.natAbs) % 2 ^ 15

def reciprocalRest (b : Q16) : Nat := 2 ^ 31 % b.toInt.natAbs

theorem quotientValue (small : truncated a b < 2 ^ 31) : (quotient a b).toInt = truncated a b := by
  have scaled := scaleByNat (productSmall a b)
  rw [productWords, ← truncated] at scaled
  have word : (quotient a b).toUInt32.toNat = truncated a b := by
    change (UInt64.toUInt32 _).toNat = _
    rw [UInt64.toNat_toUInt32, scaled]
    omega
  rw [intSplit, word, if_pos small]

theorem divValue (nonzero : b ≠ 0) (small : truncated a b < 2 ^ 31) :
    (div a b).toInt = a.toInt.sign * b.toInt.sign * truncated a b := by
  have value := quotientValue small
  have signed : (div a b).toInt =
      if a.toInt < 0 ↔ b.toInt < 0 then (truncated a b : Int) else -truncated a b := by
    rw [div, if_neg nonzero]
    by_cases alike : a.toInt < 0 ↔ b.toInt < 0
    · rw [if_neg (mt (signsDiffer a b).mp (not_not.mpr alike)), if_pos alike, value]
    · rw [if_pos ((signsDiffer a b).mpr alike), if_neg alike, negInt (by omega), value]
  have sign {v : Int} (other : v ≠ 0) : v.sign = if v < 0 then -1 else 1 := by
    split
    · exact Int.sign_eq_neg_one_of_neg ‹_›
    · exact Int.sign_eq_one_of_pos (by omega)
  rw [signed, sign (nonzeroInt nonzero)]
  -- A zero dividend counts as positive in the words and has no sign as a number.
  by_cases zero : a.toInt = 0
  · simp [truncated, zero]
  · rw [sign zero]
    by_cases left : a.toInt < 0 <;> by_cases right : b.toInt < 0 <;> simp [left, right]

theorem divSign (nonzero : b ≠ 0) (small : truncated a b < 2 ^ 31) :
    div a b = 0 ∨ (div a b).toInt.sign = a.toInt.sign * b.toInt.sign := by
  have value := divValue nonzero small
  by_cases zero : truncated a b = 0
  · left
    rw [zero, Int.natCast_zero, Int.mul_zero] at value
    exact Int32.toInt_inj.mp value
  · right
    rw [value, Int.sign_mul, Int.sign_mul, Int.sign_sign, Int.sign_sign,
      Int.sign_natCast_of_ne_zero zero, Int.mul_one]

theorem truncatedRest (a b : Q16) :
    a.toInt.natAbs * 2 ^ 31 = truncated a b * b.toInt.natAbs * 2 ^ 15 +
      cutBits a b * b.toInt.natAbs + a.toInt.natAbs * reciprocalRest b := by
  have reciprocal := Nat.div_add_mod' (2 ^ 31) b.toInt.natAbs
  have shifted := Nat.div_add_mod' (a.toInt.natAbs * (2 ^ 31 / b.toInt.natAbs)) (2 ^ 15)
  calc a.toInt.natAbs * 2 ^ 31
      = a.toInt.natAbs * (2 ^ 31 / b.toInt.natAbs) * b.toInt.natAbs +
          a.toInt.natAbs * reciprocalRest b := by
        rw [Nat.mul_assoc, ← Nat.mul_add, reciprocalRest, reciprocal]
    _ = (truncated a b * 2 ^ 15 + cutBits a b) * b.toInt.natAbs +
          a.toInt.natAbs * reciprocalRest b := by rw [truncated, cutBits, shifted]
    _ = _ := by rw [Nat.add_mul, Nat.mul_right_comm]

def exactQuotient (a b : Q16) : ℚ := a.toInt * 65536 / b.toInt

theorem absNat (v : Q16) : |(v.toInt : ℚ)| = v.toInt.natAbs := by
  rw [Nat.cast_natAbs, Int.cast_abs]

theorem absPositive {v : Q16} (nonzero : v ≠ 0) : 0 < |(v.toInt : ℚ)| :=
  abs_pos.mpr (Int.cast_ne_zero.mpr (nonzeroInt nonzero))

theorem exactAbs (a b : Q16) :
    |exactQuotient a b| = |(a.toInt : ℚ)| * 65536 / |(b.toInt : ℚ)| := by
  rw [exactQuotient, abs_div, abs_mul, abs_of_pos (by norm_num : (0 : ℚ) < 65536)]

theorem exactSigned (a b : Q16) :
    exactQuotient a b = (a.toInt.sign * b.toInt.sign : Int) * |exactQuotient a b| := by
  have signed (v : Q16) : (v.toInt : ℚ) = v.toInt.sign * |(v.toInt : ℚ)| := by
    exact_mod_cast (Int.sign_mul_abs v.toInt).symm
  rw [exactAbs]
  conv_lhs => rw [exactQuotient, signed a, signed b]
  rcases Int.sign_trichotomy b.toInt with sign | sign | sign
  · simp [sign, mul_div_assoc, mul_assoc]
  · simp [sign]
  · simp [sign, mul_div_assoc, mul_assoc, div_neg]

theorem exactRest (nonzero : b ≠ 0) :
    |exactQuotient a b| = truncated a b + (cutBits a b : ℚ) / 2 ^ 15 +
      |(a.toInt : ℚ)| * reciprocalRest b / (2 ^ 15 * |(b.toInt : ℚ)|) := by
  have rest : |(a.toInt : ℚ)| * 2 ^ 31 = truncated a b * |(b.toInt : ℚ)| * 2 ^ 15 +
      cutBits a b * |(b.toInt : ℚ)| + |(a.toInt : ℚ)| * reciprocalRest b := by
    rw [absNat, absNat]
    exact_mod_cast truncatedRest a b
  have divisor := absPositive nonzero
  rw [exactAbs]
  field_simp
  linarith

theorem truncatedMost (nonzero : b ≠ 0) : (truncated a b : ℚ) ≤ |exactQuotient a b| := by
  rw [exactRest nonzero, add_assoc]
  exact le_add_of_nonneg_right (by positivity)

theorem truncatedSmall (nonzero : b ≠ 0) (representable : |exactQuotient a b| < 2 ^ 31) :
    truncated a b < 2 ^ 31 := by
  exact_mod_cast lt_of_le_of_lt (truncatedMost nonzero) representable

theorem signedAbs (nonzero : b ≠ 0) {q : ℚ} (none : a.toInt = 0 → q = 0) :
    |((a.toInt.sign * b.toInt.sign : Int) : ℚ) * q| = |q| := by
  by_cases zero : a.toInt = 0
  · rw [none zero, mul_zero]
  · have unit : |a.toInt.sign * b.toInt.sign| = 1 := by
      rw [abs_mul, Int.abs_sign_of_ne_zero zero, Int.abs_sign_of_ne_zero (nonzeroInt nonzero),
        one_mul]
    rw [abs_mul, ← Int.cast_abs, unit, Int.cast_one, one_mul]

theorem divAbs (nonzero : b ≠ 0) (small : truncated a b < 2 ^ 31) :
    |((div a b).toInt : ℚ)| = truncated a b := by
  rw [divValue nonzero small, Int.cast_mul, Int.cast_natCast,
    signedAbs nonzero fun zero => by simp [truncated, zero]]
  exact abs_of_nonneg (Nat.cast_nonneg _)

theorem divDistance (nonzero : b ≠ 0) (small : truncated a b < 2 ^ 31) :
    |((div a b).toInt : ℚ) - exactQuotient a b| = |exactQuotient a b| - truncated a b := by
  have most : (truncated a b : ℚ) ≤ |exactQuotient a b| := truncatedMost nonzero
  calc |((div a b).toInt : ℚ) - exactQuotient a b|
      = |((a.toInt.sign * b.toInt.sign : Int) : ℚ) * (truncated a b - |exactQuotient a b|)| := by
        rw [divValue nonzero small, mul_sub, ← exactSigned, Int.cast_mul, Int.cast_natCast]
    _ = |(truncated a b : ℚ) - (|exactQuotient a b|)| :=
        signedAbs nonzero fun zero => by simp [truncated, exactQuotient, zero]
    _ = |exactQuotient a b| - truncated a b := by
        rw [abs_sub_comm, abs_of_nonneg (sub_nonneg.mpr most)]

theorem cutSmall (a b : Q16) : cutBits a b < 2 ^ 15 := Nat.mod_lt _ (by decide)

theorem truncatedLeast (nonzero : b ≠ 0) :
    |exactQuotient a b| - truncated a b < |(a.toInt : ℚ)| / 32768 + 1 := by
  have divisor := absPositive nonzero
  have cut : (cutBits a b : ℚ) / 2 ^ 15 < 1 := by
    rw [div_lt_one (by norm_num)]
    exact_mod_cast cutSmall a b
  have rest : (reciprocalRest b : ℚ) ≤ |(b.toInt : ℚ)| := by
    rw [absNat] at divisor ⊢
    exact_mod_cast (Nat.mod_lt _ (by exact_mod_cast divisor)).le
  have lost : |(a.toInt : ℚ)| * reciprocalRest b / (2 ^ 15 * |(b.toInt : ℚ)|) ≤
      |(a.toInt : ℚ)| / 32768 := by
    rw [div_le_div_iff₀ (by positivity) (by norm_num)]
    nlinarith [mul_le_mul_of_nonneg_left rest (abs_nonneg (a.toInt : ℚ))]
  rw [exactRest nonzero]
  linarith

/-- Division by a truncated reciprocal keeps to its 64 bits, has the sign of the quotient and comes
short of it by less than one unit and the 32768th part of the dividend. -/
theorem divisionErrorBounded (nonzero : b ≠ 0) :
    (((magnitude a).toUInt64 * (reciprocal (magnitude b)).toUInt64).toNat =
        a.toInt.natAbs * (2 ^ 31 / b.toInt.natAbs) ∧
      (((magnitude a).toUInt64 * (reciprocal (magnitude b)).toUInt64) <<< 1).toNat =
        a.toInt.natAbs * (2 ^ 31 / b.toInt.natAbs) * 2) ∧
    (|exactQuotient a b| < 2 ^ 31 →
      (div a b = 0 ∨ (div a b).toInt.sign = a.toInt.sign * b.toInt.sign) ∧
      |((div a b).toInt : ℚ)| ≤ |exactQuotient a b| ∧
      |exactQuotient a b| - |((div a b).toInt : ℚ)| < |(a.toInt : ℚ)| / 32768 + 1) := by
  refine ⟨productWords a b ▸ productNat (productSmall a b), fun representable => ?_⟩
  have small := truncatedSmall nonzero representable
  rw [divAbs nonzero small]
  exact ⟨divSign nonzero small, truncatedMost nonzero, truncatedLeast nonzero⟩

theorem leastByAboveOne : (65537 : Q16) ≠ 0 ∧ |exactQuotient least 65537| < 2 ^ 31 ∧
    (div least 65537).toInt = -2147418112 ∧
    |exactQuotient least 65537| - |((div least 65537).toInt : ℚ)| < 65537 := by
  have dividend : least.toInt = -2147483648 := rfl
  have divisor : (65537 : Q16).toInt = 65537 := rfl
  have nonzero : (65537 : Q16) ≠ 0 := by decide
  have representable : |exactQuotient least 65537| < 2 ^ 31 := by
    rw [exactAbs, dividend, divisor]
    norm_num
  obtain ⟨-, bounded⟩ := divisionErrorBounded (a := least) nonzero
  obtain ⟨-, -, short⟩ := bounded representable
  refine ⟨nonzero, representable, by decide +kernel, short.trans_eq ?_⟩
  rw [dividend]
  norm_num

section Percent

def reciprocalLoss (b : Q16) : ℚ := reciprocalRest b / 2 ^ 31

def shiftLoss (a b : Q16) : ℚ := cutBits a b * |(b.toInt : ℚ)| / (2 ^ 31 * |(a.toInt : ℚ)|)

def WithinPercent (percent : ℚ) (a b : Q16) : Prop :=
  |((div a b).toInt : ℚ) - exactQuotient a b| ≤ percent / 100 * |exactQuotient a b|

theorem relativeError (dividend : a ≠ 0) (nonzero : b ≠ 0) (small : truncated a b < 2 ^ 31) :
    |((div a b).toInt : ℚ) - exactQuotient a b| =
      (reciprocalLoss b + shiftLoss a b) * |exactQuotient a b| := by
  have above := absPositive dividend
  have below := absPositive nonzero
  rw [divDistance nonzero small]
  conv_lhs => rw [exactRest nonzero]
  rw [exactAbs, reciprocalLoss, shiftLoss]
  field_simp
  ring

theorem shiftLossRange (dividend : a ≠ 0) (whole : |(b.toInt : ℚ)| ≤ |(a.toInt : ℚ)|) :
    0 ≤ shiftLoss a b ∧ shiftLoss a b ≤ 32767 / 2 ^ 31 := by
  have above := absPositive dividend
  have cut : (cutBits a b : ℚ) ≤ 32767 := by exact_mod_cast Nat.le_of_lt_succ (cutSmall a b)
  refine ⟨by unfold shiftLoss; positivity, ?_⟩
  rw [shiftLoss, div_le_div_iff₀ (by positivity) (by norm_num)]
  have most : (cutBits a b : ℚ) * |(b.toInt : ℚ)| ≤ 32767 * |(a.toInt : ℚ)| :=
    mul_le_mul cut whole (abs_nonneg _) (by norm_num)
  linarith

theorem restMost (nonzero : b ≠ 0) (below : b.toInt.natAbs ≤ 65075262) :
    reciprocalRest b ≤ 64391742 := by
  have positive : 0 < b.toInt.natAbs := Int.natAbs_pos.mpr (nonzeroInt nonzero)
  unfold reciprocalRest
  -- A rest is below its divisor, which is enough up to the bound; from there on the quotient is 33.
  by_cases small : b.toInt.natAbs ≤ 64391743
  · have rest := Nat.mod_lt (2 ^ 31) positive
    omega
  · have times : 2 ^ 31 / b.toInt.natAbs = 33 := Nat.div_eq_of_lt_le (by omega) (by omega)
    have rest := Nat.div_add_mod (2 ^ 31) b.toInt.natAbs
    rw [times] at rest
    omega

theorem withinIff (dividend : a ≠ 0) (nonzero : b ≠ 0) (small : truncated a b < 2 ^ 31)
    (percent : ℚ) :
    WithinPercent percent a b ↔ reciprocalLoss b + shiftLoss a b ≤ percent / 100 := by
  have positive : 0 < |exactQuotient a b| := by
    rw [exactAbs]
    have above := absPositive dividend
    have below := absPositive nonzero
    positivity
  rw [WithinPercent, relativeError dividend nonzero small]
  exact mul_le_mul_iff_left₀ positive

/-- A quotient of at least one misses by the two losses, of which the shift's is tiny. Up to the
divisor 65075262, a little below 993, they never exceed three percent, and for the next one they
always do. -/
theorem divisionWithinThreePercent (divisor : 655 < |b.toInt|)
    (whole : 65536 ≤ |exactQuotient a b|) (representable : |exactQuotient a b| < 2 ^ 31) :
    |((div a b).toInt : ℚ) - exactQuotient a b| =
      (reciprocalLoss b + shiftLoss a b) * |exactQuotient a b| ∧
    0 ≤ shiftLoss a b ∧ shiftLoss a b < 1 / 65536 ∧
    (WithinPercent 3 a b ↔ reciprocalLoss b + shiftLoss a b ≤ 3 / 100) ∧
    (|b.toInt| ≤ 65075262 → WithinPercent 3 a b) ∧
    (|b.toInt| = 65075263 → ¬ WithinPercent 3 a b) := by
  rw [Int.abs_eq_natAbs] at divisor ⊢
  have nonzero : b ≠ 0 := by
    rintro rfl
    exact absurd divisor (by decide)
  have dividend : a ≠ 0 := by
    rintro rfl
    norm_num [exactQuotient, Int32.toInt_zero] at whole
  have below := absPositive nonzero
  have least : |(b.toInt : ℚ)| ≤ |(a.toInt : ℚ)| := by
    rw [exactAbs, le_div_iff₀ below] at whole
    linarith
  have small := truncatedSmall nonzero representable
  have within := withinIff dividend nonzero small 3
  obtain ⟨low, high⟩ := shiftLossRange dividend least
  refine ⟨relativeError dividend nonzero small, low, ?_, within, fun few => ?_, fun next => ?_⟩
  · linarith
  · have rest : (reciprocalRest b : ℚ) ≤ 64391742 := by
      exact_mod_cast restMost nonzero (by omega)
    rw [within, reciprocalLoss]
    linarith
  · have rest : reciprocalRest b = 65075232 := by
      have magnitude : b.toInt.natAbs = 65075263 := by omega
      rw [reciprocalRest, magnitude]
      rfl
    rw [within, reciprocalLoss, rest]
    norm_num
    linarith

theorem halvedQuotient : 655 < |(1073741825 : Q16).toInt| ∧
    65536 ≤ |exactQuotient greatest 1073741825| ∧ |exactQuotient greatest 1073741825| < 2 ^ 31 ∧
    (div greatest 1073741825).toInt = 65535 ∧ ¬ WithinPercent 3 greatest 1073741825 := by
  have dividend : greatest.toInt = 2147483647 := rfl
  have divisor : (1073741825 : Q16).toInt = 1073741825 := rfl
  have large : 655 < |(1073741825 : Q16).toInt| := by
    rw [divisor]
    norm_num
  have ratio : |exactQuotient greatest 1073741825| = 2147483647 * 65536 / 1073741825 := by
    rw [exactAbs, dividend, divisor]
    norm_num
  have whole : 65536 ≤ |exactQuotient greatest 1073741825| := by
    rw [ratio]
    norm_num
  have representable : |exactQuotient greatest 1073741825| < 2 ^ 31 := by
    rw [ratio]
    norm_num
  have rest : reciprocalRest 1073741825 = 1073741823 := by
    rw [reciprocalRest, divisor]
    rfl
  obtain ⟨-, low, -, within, -⟩ := divisionWithinThreePercent large whole representable
  refine ⟨large, whole, representable, by decide +kernel, fun close => ?_⟩
  rw [within, reciprocalLoss, rest] at close
  norm_num at close
  linarith

end Percent

end FixedIL.Fixed
