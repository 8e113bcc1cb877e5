import FixedIL.Proofs.SquareRootSteps
import Mathlib.Analysis.Real.Sqrt
import Mathlib.Tactic.FieldSimp
import Mathlib.Tactic.LinearCombination
import Mathlib.Tactic.NormNum
import Mathlib.Tactic.Positivity

/-!
How far the square root is from the exact one. A guess that is not cut settles at 65536 times the
root of the argument. Three things then separate the result from the exact root: the last step
overshoots a little, the rest of its reciprocal takes up to `√x / 65536` away, and the last bits are
cut. Past 5000 every reciprocal is one, so that the six steps are a fixed share of the argument.
-/
namespace FixedIL.Fixed

namespace Sqrt

namespace Unbounded

variable {x g r : Int} {k : Nat}

theorem guessRange (positive : 0 < x) (small : x < 2 ^ 31) (few : k < steps) :
    4 * x ≤ guess x k ∧ guess x k < 2 ^ 38 := by
  obtain ⟨low, high⟩ := guessBounds positive small few.le
  exact ⟨fourfold positive few low, high⟩

theorem guessNext (positive : 0 < x) (small : x < 2 ^ 31) (few : k < steps) :
    guess x (k + 1) = (guess x k + 2 * (x * (2147483648 / clamp (guess x k)))) / 2 := by
  obtain ⟨above, below⟩ := guessRange positive small few
  rw [guess, (refineBounds positive small above below).1, quotientValue]

theorem clampSmall (small : g ≤ 2147483647) : clamp g = g := by
  unfold clamp
  split <;> omega

theorem reciprocalOf (whole : 0 < g ∧ g ≤ 2147483647)
    (share : r * g ≤ 2147483648 ∧ 2147483648 < r * g + g) : 2147483648 / clamp g = r := by
  rw [clampSmall whole.2]
  exact (Int.ediv_eq_iff_of_pos whole.1).mpr share

theorem guessBy (positive : 0 < x) (small : x < 2 ^ 31) (few : k < steps) (here : guess x k = g)
    (share : 2147483648 / clamp g = r) : guess x (k + 1) = (g + 2 * (x * r)) / 2 := by
  rw [guessNext positive small few, here, share]

theorem coarseReciprocal (large : 1073741824 < g) : 2147483648 / clamp g = 1 := by
  unfold clamp
  split
  · exact (Int.ediv_eq_iff_of_pos (by omega)).mpr (by omega)
  · rfl

theorem coarseGuess (large : 327680000 < x) (small : x < 2 ^ 31) (few : k ≤ steps) :
    guess x k = 126 * x / 2 ^ k + 2 * x := by
  have positive : 0 < x := by omega
  induction k with
  | zero =>
    rw [guessZero positive]
    omega
  | succ k ih =>
    have before : k < steps := few
    obtain ⟨above, -⟩ := guessRange positive small before
    have halved : 126 * x / 2 ^ (k + 1) = 126 * x / 2 ^ k / 2 := by
      rw [pow_succ, Int.ediv_ediv_of_nonneg (by positivity)]
    rw [guessBy positive small before (ih before.le) (coarseReciprocal (by omega)), halved]
    omega

theorem coarseRoot (large : 327680000 < x) (small : x < 2 ^ 31) :
    root x = 127 * x / 8192 := by
  rw [root, if_neg (by omega), coarseGuess large small le_rfl, steps]
  omega

theorem stretchRoot (above : 1717000 < x) (below : x ≤ 1720137) : root x = 1599 * x / 8192 := by
  have positive : 0 < x := by omega
  have small : x < 2 ^ 31 := by omega
  have first : guess x 1 = 73 * x := by
    rw [guessBy (r := 9) positive small (by decide) (guessZero positive)
      (reciprocalOf (by omega) (by omega))]
    omega
  have second : guess x 2 = 107 * x / 2 := by
    rw [guessBy (r := 17) positive small (by decide) first (reciprocalOf (by omega) (by omega))]
    omega
  have third : guess x 3 = 199 * x / 4 := by
    rw [guessBy (r := 23) positive small (by decide) second (reciprocalOf (by omega) (by omega))]
    omega
  have fourth : guess x 4 = 399 * x / 8 := by
    rw [guessBy (r := 25) positive small (by decide) third (reciprocalOf (by omega) (by omega))]
    omega
  have fifth : guess x 5 = 799 * x / 16 := by
    rw [guessBy (r := 25) positive small (by decide) fourth (reciprocalOf (by omega) (by omega))]
    omega
  have last : guess x 6 = 1599 * x / 32 := by
    rw [guessBy (r := 25) positive small (by decide) fifth (reciprocalOf (by omega) (by omega))]
    omega
  rw [root, if_neg (by omega), steps, last]
  omega

section Settling

noncomputable def target (x : Int) : ℝ := 65536 * √(x : ℝ)

theorem targetSq (positive : 0 < x) : target x ^ 2 = 2 ^ 32 * x := by
  have nonneg : (0 : ℝ) ≤ x := by exact_mod_cast positive.le
  rw [target, mul_pow, Real.sq_sqrt nonneg]
  norm_num

theorem targetPositive (positive : 0 < x) : 0 < target x :=
  mul_pos (by norm_num) (Real.sqrt_pos.mpr (by exact_mod_cast positive))

theorem rootRange (low : 16384 ≤ x) (high : x ≤ 65536000) :
    128 ≤ √(x : ℝ) ∧ √(x : ℝ) ≤ 8096 := by
  have least : (16384 : ℝ) ≤ x := by exact_mod_cast low
  have most : (x : ℝ) ≤ 65536000 := by exact_mod_cast high
  exact ⟨Real.le_sqrt_of_sq_le (by linarith), Real.sqrt_le_iff.mpr ⟨by norm_num, by linarith⟩⟩

theorem nextMost (positive : 0 < x) (small : x < 2 ^ 31) (few : k < steps) :
    (guess x (k + 1) : ℝ) ≤ guess x k / 2 + x * (2147483648 / clamp (guess x k) : Int) := by
  have next := guessNext positive small few
  have halves : 2 * guess x (k + 1) ≤
      guess x k + 2 * (x * (2147483648 / clamp (guess x k))) := by omega
  have real : (2 : ℝ) * guess x (k + 1) ≤
      guess x k + 2 * (x * (2147483648 / clamp (guess x k) : Int)) := by exact_mod_cast halves
  linarith

theorem nextLeast (positive : 0 < x) (small : x < 2 ^ 31) (few : k < steps) :
    guess x k / 2 + x * (2147483648 / clamp (guess x k) : Int) - 1 / 2 ≤
      (guess x (k + 1) : ℝ) := by
  have next := guessNext positive small few
  have halves : guess x k + 2 * (x * (2147483648 / clamp (guess x k))) ≤
      2 * guess x (k + 1) + 1 := by omega
  have real : guess x k + (2 : ℝ) * (x * (2147483648 / clamp (guess x k) : Int)) ≤
      2 * guess x (k + 1) + 1 := by exact_mod_cast halves
  linarith

theorem wholeReciprocal (positive : 0 < g) (small : g ≤ 2147483647) :
    ((2147483648 / clamp g : Int) : ℝ) * g ≤ 2147483648 ∧
      2147483648 - g ≤ ((2147483648 / clamp g : Int) : ℝ) * g := by
  rw [clampSmall small]
  have most : 2147483648 / g * g ≤ 2147483648 := Int.ediv_mul_le _ positive.ne'
  have least : 2147483648 < (2147483648 / g + 1) * g := Int.lt_ediv_add_one_mul_self _ positive
  have above : 2147483648 - g ≤ 2147483648 / g * g := by linarith
  exact ⟨by exact_mod_cast most, by exact_mod_cast above⟩

def Near (u : ℝ) (x g : Int) : Prop := target x ≤ u * g ∧ g ≤ u * target x

theorem nearSquares {u : ℝ} (near : Near u x g) :
    u * ((g : ℝ) ^ 2 + target x ^ 2) ≤ (u ^ 2 + 1) * (g * target x) := by
  have product : 0 ≤ (u * g - target x) * (u * target x - g) :=
    mul_nonneg (sub_nonneg.mpr near.1) (sub_nonneg.mpr near.2)
  linarith

theorem nextAbove (positive : 0 < x) (high : x ≤ 65536000) (few : k < steps) :
    target x - x - 1 / 2 ≤ guess x (k + 1) := by
  have small : x < 2 ^ 31 := by omega
  have number : (0 : ℝ) < x := by exact_mod_cast positive
  obtain ⟨above, -⟩ := guessRange positive small few
  have next := nextLeast positive small few
  have positiveGuess : (0 : ℝ) < guess x k := by exact_mod_cast (by omega : 0 < guess x k)
  by_cases whole : guess x k ≤ 2147483647
  · -- The mean of the guess and the quotient is at least their geometric mean.
    have least := (wholeReciprocal (by omega) whole).2
    have square := targetSq positive
    have mean : 2 * (guess x k * target x) ≤ (guess x k : ℝ) ^ 2 + target x ^ 2 := by
      linarith [sq_nonneg ((guess x k : ℝ) - target x)]
    have scaled : (target x - x - 1 / 2) * guess x k ≤ guess x (k + 1) * guess x k := by
      nlinarith [mul_le_mul_of_nonneg_left least number.le,
        mul_le_mul_of_nonneg_right next positiveGuess.le]
    exact le_of_mul_le_mul_right scaled positiveGuess
  · have large : (2147483648 : ℝ) ≤ guess x k := by exact_mod_cast (by omega : _ ≤ guess x k)
    rw [coarseReciprocal (by omega)] at next
    have most : √(x : ℝ) ≤ 8096 :=
      Real.sqrt_le_iff.mpr ⟨by norm_num, by
        have bound : (x : ℝ) ≤ 65536000 := by exact_mod_cast high
        linarith⟩
    push_cast at next
    rw [target]
    linarith

theorem nextBelow {u v : ℝ} (positive : 0 < x) (high : x ≤ 65536000) (few : k < steps)
    (near : Near u x (guess x k)) (factor : 0 < u) (mean : u ^ 2 + 1 ≤ 2 * v * u)
    (coarse : u / 2 + 1 / 8 ≤ v) : guess x (k + 1) ≤ v * target x := by
  have small : x < 2 ^ 31 := by omega
  have number : (0 : ℝ) < x := by exact_mod_cast positive
  have settled := targetPositive positive
  obtain ⟨above, -⟩ := guessRange positive small few
  have next := nextMost positive small few
  have positiveGuess : (0 : ℝ) < guess x k := by exact_mod_cast (by omega : 0 < guess x k)
  by_cases whole : guess x k ≤ 2147483647
  · have most := (wholeReciprocal (by omega) whole).1
    have square := targetSq positive
    have product : 0 < guess x k * target x := mul_pos positiveGuess settled
    have squares : (guess x k : ℝ) ^ 2 + target x ^ 2 ≤ 2 * v * (guess x k * target x) := by
      refine le_of_mul_le_mul_left ((nearSquares near).trans ?_) factor
      nlinarith [mul_le_mul_of_nonneg_right mean product.le]
    have scaled : guess x (k + 1) * guess x k ≤ v * target x * guess x k := by
      nlinarith [mul_le_mul_of_nonneg_left most number.le,
        mul_le_mul_of_nonneg_right next positiveGuess.le]
    exact le_of_mul_le_mul_right scaled positiveGuess
  · rw [coarseReciprocal (by omega)] at next
    have share : (x : ℝ) ≤ target x / 8 := by
      have most : (x : ℝ) ≤ 65536000 := by exact_mod_cast high
      have root : √(x : ℝ) ≤ 8192 := Real.sqrt_le_iff.mpr ⟨by norm_num, by linarith⟩
      have square : √(x : ℝ) ^ 2 = x := Real.sq_sqrt number.le
      rw [target]
      nlinarith [mul_le_mul_of_nonneg_left root (Real.sqrt_nonneg (x : ℝ))]
    push_cast at next
    nlinarith [near.2, mul_le_mul_of_nonneg_right coarse settled.le]

theorem nearNext {u v : ℝ} (low : 16384 ≤ x) (high : x ≤ 65536000) (few : k < steps)
    (near : Near u x (guess x k)) (factor : 0 < u) (mean : u ^ 2 + 1 ≤ 2 * v * u)
    (coarse : u / 2 + 1 / 8 ≤ v) (least : 8 / 7 ≤ v) : Near v x (guess x (k + 1)) := by
  have positive : 0 < x := by omega
  refine ⟨?_, nextBelow positive high few near factor mean coarse⟩
  obtain ⟨large, most⟩ := rootRange low high
  have above := nextAbove positive high few
  have square : √(x : ℝ) ^ 2 = x := Real.sq_sqrt (by exact_mod_cast positive.le)
  have share : (x : ℝ) + 1 / 2 ≤ target x / 8 := by
    rw [target]
    nlinarith
  have kept : 7 / 8 * target x ≤ guess x (k + 1) := by linarith
  have settled := targetPositive positive
  nlinarith [mul_le_mul_of_nonneg_right least (by linarith : (0 : ℝ) ≤ guess x (k + 1))]

theorem lastNear (low : 16384 ≤ x) (high : x ≤ 65536000) : Near (8 / 7) x (guess x 5) := by
  have start : Near 16 x (guess x 0) := by
    obtain ⟨large, most⟩ := rootRange low high
    have square : √(x : ℝ) ^ 2 = x :=
      Real.sq_sqrt (by exact_mod_cast (by omega : (0 : Int) ≤ x))
    rw [guessZero (by omega), Near, target]
    push_cast
    constructor <;> nlinarith
  have first : Near (33 / 4) x (guess x 1) :=
    nearNext low high (by decide) start (by norm_num) (by norm_num) (by norm_num) (by norm_num)
  have second : Near (17 / 4) x (guess x 2) :=
    nearNext low high (by decide) first (by norm_num) (by norm_num) (by norm_num) (by norm_num)
  have third : Near (9 / 4) x (guess x 3) :=
    nearNext low high (by decide) second (by norm_num) (by norm_num) (by norm_num) (by norm_num)
  have fourth : Near (11 / 8) x (guess x 4) :=
    nearNext low high (by decide) third (by norm_num) (by norm_num) (by norm_num) (by norm_num)
  exact nearNext low high (by decide) fourth (by norm_num) (by norm_num) (by norm_num) (by norm_num)

end Settling

section Losses

noncomputable def overshoot (x g : Int) : ℝ := (g - target x) ^ 2 / (2 * g * target x)

noncomputable def restLoss (x g : Int) : ℝ := x * (2147483648 % g : Int) / (g * target x)

noncomputable def cutLoss (x g : Int) : ℝ :=
  ((g + 2 * (x * (2147483648 / g))) % 512 : Int) / (2 * target x)

theorem lossesAddUp (positive : 0 < x) (divisor : 0 < g) :
    (((g + 2 * (x * (2147483648 / g))) / 512 : Int) : ℝ) - target x / 256 =
      (overshoot x g - restLoss x g - cutLoss x g) * (target x / 256) := by
  have settled := targetPositive positive
  have square := targetSq positive
  have real : (0 : ℝ) < g := by exact_mod_cast divisor
  have reciprocal : ((2147483648 / g : Int) : ℝ) * g + (2147483648 % g : Int) = 2147483648 := by
    exact_mod_cast Int.ediv_mul_add_emod 2147483648 g
  have parts : (((g + 2 * (x * (2147483648 / g))) / 512 : Int) : ℝ) * 512 +
      ((g + 2 * (x * (2147483648 / g))) % 512 : Int) =
        g + 2 * (x * (2147483648 / g : Int)) := by
    exact_mod_cast Int.ediv_mul_add_emod (g + 2 * (x * (2147483648 / g))) 512
  rw [overshoot, restLoss, cutLoss]
  field_simp
  linear_combination (g : ℝ) * parts + 2 * (x : ℝ) * reciprocal - square

theorem overshootRange (positive : 0 < x) (divisor : 0 < g) (near : Near (8 / 7) x g) :
    0 ≤ overshoot x g ∧ overshoot x g ≤ 1 / 112 := by
  have settled := targetPositive positive
  have real : (0 : ℝ) < g := by exact_mod_cast divisor
  refine ⟨by unfold overshoot; positivity, ?_⟩
  have squares := nearSquares near
  rw [overshoot, div_le_div_iff₀ (by positivity) (by norm_num)]
  linarith

theorem restLossRange (positive : 0 < x) (divisor : 0 < g) :
    0 ≤ restLoss x g ∧ restLoss x g < √(x : ℝ) / 65536 := by
  have settled := targetPositive positive
  have real : (0 : ℝ) < g := by exact_mod_cast divisor
  have number : (0 : ℝ) < x := by exact_mod_cast positive
  have least : (0 : ℝ) ≤ (2147483648 % g : Int) := by
    exact_mod_cast Int.emod_nonneg _ divisor.ne'
  have most : ((2147483648 % g : Int) : ℝ) < g := by exact_mod_cast Int.emod_lt_of_pos _ divisor
  have square : √(x : ℝ) ^ 2 = x := Real.sq_sqrt number.le
  refine ⟨by unfold restLoss; positivity, ?_⟩
  have share : √(x : ℝ) / 65536 = x * g / (g * target x) := by
    rw [target]
    have root : 0 < √(x : ℝ) := Real.sqrt_pos.mpr number
    field_simp
    linarith
  rw [share, restLoss]
  gcongr

theorem cutLossRange (low : 16384 ≤ x) (high : x ≤ 65536000) (g : Int) :
    0 ≤ cutLoss x g ∧ cutLoss x g ≤ 511 / 131072 / √(x : ℝ) := by
  have settled := targetPositive (by omega : 0 < x)
  have least : (0 : ℝ) ≤ ((g + 2 * (x * (2147483648 / g))) % 512 : Int) := by
    exact_mod_cast Int.emod_nonneg _ (by decide)
  have most : (((g + 2 * (x * (2147483648 / g))) % 512 : Int) : ℝ) ≤ 511 := by
    exact_mod_cast (by omega)
  obtain ⟨root, -⟩ := rootRange low high
  refine ⟨by unfold cutLoss; positivity, ?_⟩
  rw [cutLoss, target, div_div, div_le_div_iff₀ (by positivity) (by positivity)]
  nlinarith

theorem lossesSmall (low : 16384 ≤ x) (high : x ≤ 1717000) (divisor : 0 < g) :
    restLoss x g + cutLoss x g ≤ 2 / 100 := by
  have rest := (restLossRange (by omega : 0 < x) divisor).2
  have cut := (cutLossRange low (by omega) g).2
  obtain ⟨large, -⟩ := rootRange low (by omega : x ≤ 65536000)
  have most : √(x : ℝ) ≤ 1310.35 := by
    refine Real.sqrt_le_iff.mpr ⟨by norm_num, ?_⟩
    have bound : (x : ℝ) ≤ 1717000 := by exact_mod_cast high
    linarith
  have shares : √(x : ℝ) / 65536 + 511 / 131072 / √(x : ℝ) ≤ 2 / 100 := by
    have root : 0 < √(x : ℝ) := by linarith
    rw [div_div, div_add_div _ _ (by norm_num) (by positivity),
      div_le_div_iff₀ (by positivity) (by norm_num)]
    nlinarith
  linarith

end Losses

end Unbounded

def lastGuess (x : Q16) : Int := (guess x 5).toInt

noncomputable def lastOvershoot (x : Q16) : ℝ := Unbounded.overshoot x.toInt (lastGuess x)

noncomputable def lastRestLoss (x : Q16) : ℝ := Unbounded.restLoss x.toInt (lastGuess x)

noncomputable def lastCutLoss (x : Q16) : ℝ := Unbounded.cutLoss x.toInt (lastGuess x)

end Sqrt

variable {x : Q16}

noncomputable def exactRoot (x : Q16) : ℝ := √(65536 * (x.toInt : ℝ))

def RootWithin (percent : ℝ) (x : Q16) : Prop :=
  |((sqrt x).toInt : ℝ) - exactRoot x| ≤ percent / 100 * exactRoot x

theorem exactRootTarget (x : Q16) : exactRoot x = Sqrt.Unbounded.target x.toInt / 256 := by
  rw [exactRoot, Sqrt.Unbounded.target, Real.sqrt_mul (by norm_num),
    show (65536 : ℝ) = 256 ^ 2 by norm_num, Real.sqrt_sq (by norm_num)]
  ring

theorem exactRootSq (positive : 0 < x.toInt) : exactRoot x ^ 2 = 65536 * x.toInt :=
  Real.sq_sqrt (by have := positive; positivity)

theorem exactRootPositive (positive : 0 < x.toInt) : 0 < exactRoot x :=
  Real.sqrt_pos.mpr (by have := positive; positivity)

theorem rootInt (positive : 0 < x.toInt) : (sqrt x).toInt = Sqrt.Unbounded.root x.toInt := by
  have word : 0 < x := Int32.lt_iff_toInt_lt.mpr positive
  obtain ⟨-, -, -, -, -, -, -, same⟩ := squareRootSafe word
  exact same

section Narrow

variable (low : 16384 ≤ x.toInt) (high : x.toInt ≤ 65536000)

include low high

theorem lastGuessNear : Sqrt.lastGuess x = Sqrt.Unbounded.guess x.toInt 5 ∧ 0 < Sqrt.lastGuess x ∧
    Sqrt.Unbounded.Near (8 / 7) x.toInt (Sqrt.lastGuess x) ∧ Sqrt.lastGuess x ≤ 2147483647 := by
  have positive : 0 < x.toInt := by omega
  have same : Sqrt.lastGuess x = Sqrt.Unbounded.guess x.toInt 5 :=
    Sqrt.guessInt positive (by decide)
  have near := Sqrt.Unbounded.lastNear low high
  have above := (Sqrt.Unbounded.guessRange positive x.toInt_lt (k := 5) (by decide)).1
  obtain ⟨-, most⟩ := Sqrt.Unbounded.rootRange low high
  have small : (Sqrt.Unbounded.guess x.toInt 5 : ℝ) ≤ 2147483647 := by
    have upper := near.2
    rw [Sqrt.Unbounded.target] at upper
    linarith
  rw [same]
  exact ⟨rfl, by omega, near, by exact_mod_cast small⟩

theorem rootError : ((sqrt x).toInt : ℝ) - exactRoot x =
    (Sqrt.lastOvershoot x - Sqrt.lastRestLoss x - Sqrt.lastCutLoss x) * exactRoot x := by
  have positive : 0 < x.toInt := by omega
  obtain ⟨same, divisor, -, small⟩ := lastGuessNear low high
  have last := Sqrt.Unbounded.guessNext positive x.toInt_lt (k := 5) (by decide)
  have root : (sqrt x).toInt = (Sqrt.lastGuess x +
      2 * (x.toInt * (2147483648 / Sqrt.lastGuess x))) / 512 := by
    rw [← same, Sqrt.Unbounded.clampSmall small] at last
    rw [rootInt positive, Sqrt.Unbounded.root, if_neg (by omega), Sqrt.steps, last]
    omega
  rw [root, exactRootTarget]
  exact Sqrt.Unbounded.lossesAddUp positive divisor

theorem withinTwoIff : RootWithin 2 x ↔
    Sqrt.lastRestLoss x + Sqrt.lastCutLoss x ≤ 2 / 100 + Sqrt.lastOvershoot x := by
  have positive : 0 < x.toInt := by omega
  obtain ⟨-, divisor, near, -⟩ := lastGuessNear low high
  have exact := exactRootPositive positive
  have excess : Sqrt.lastOvershoot x ≤ 1 / 112 :=
    (Sqrt.Unbounded.overshootRange positive divisor near).2
  have rest : 0 ≤ Sqrt.lastRestLoss x := (Sqrt.Unbounded.restLossRange positive divisor).1
  have cut : 0 ≤ Sqrt.lastCutLoss x := (Sqrt.Unbounded.cutLossRange low high _).1
  rw [RootWithin, rootError low high, abs_mul, abs_of_pos exact, mul_le_mul_iff_left₀ exact, abs_le]
  constructor
  · rintro ⟨least, -⟩
    linarith
  · intro losses
    constructor <;> linarith

end Narrow

theorem exactRootMost {y : ℝ} (nonneg : 0 ≤ y) (square : 65536 * (x.toInt : ℝ) ≤ y ^ 2) :
    exactRoot x ≤ y :=
  Real.sqrt_le_iff.mpr ⟨nonneg, square⟩

theorem withinTwo (low : 16384 ≤ x.toInt) (high : x.toInt ≤ 1720137) : RootWithin 2 x := by
  have positive : 0 < x.toInt := by omega
  have domain : x.toInt ≤ 65536000 := by omega
  obtain ⟨-, divisor, near, -⟩ := lastGuessNear low domain
  rw [withinTwoIff low domain]
  by_cases first : x.toInt ≤ 1717000
  · have losses : Sqrt.lastRestLoss x + Sqrt.lastCutLoss x ≤ 2 / 100 :=
      Sqrt.Unbounded.lossesSmall low first divisor
    have excess : 0 ≤ Sqrt.lastOvershoot x :=
      (Sqrt.Unbounded.overshootRange positive divisor near).1
    linarith
  · -- The losses are what the known root comes short of.
    have root : (sqrt x).toInt = 1599 * x.toInt / 8192 := by
      rw [rootInt positive]
      exact Sqrt.Unbounded.stretchRoot (by omega) high
    have exact := exactRootPositive positive
    have error := rootError low domain
    have most : exactRoot x ≤ (sqrt x).toInt * (50 / 49) := by
      have real : (1599 : ℝ) * x.toInt - 8191 ≤ 8192 * (sqrt x).toInt := by
        exact_mod_cast (by omega : 1599 * x.toInt - 8191 ≤ 8192 * (sqrt x).toInt)
      have above : (1717000 : ℝ) ≤ x.toInt := by exact_mod_cast (by omega)
      exact exactRootMost (by linarith) (by nlinarith)
    by_contra more
    nlinarith

theorem missesTwo (here : x.toInt = 1720138) : (sqrt x).toInt = 329035 ∧ ¬ RootWithin 2 x := by
  have word : x = 1720138 := Int32.toInt_inj.mp here
  have root : (sqrt x).toInt = 329035 := by
    rw [word]
    decide +kernel
  have least : 335754 ≤ exactRoot x := by
    rw [exactRoot, here]
    exact Real.le_sqrt_of_sq_le (by norm_num)
  refine ⟨root, fun close => ?_⟩
  rw [RootWithin, root, abs_le] at close
  norm_num at close
  linarith

section Coarse

variable (large : 327680000 < x.toInt)

include large

theorem coarseShare : (sqrt x).toInt = 127 * x.toInt / 8192 := by
  rw [rootInt (by omega)]
  exact Sqrt.Unbounded.coarseRoot large x.toInt_lt

theorem withinSixtyIff :
    RootWithin 60 x ↔ 25 * (127 * x.toInt / 8192) ^ 2 ≤ 4194304 * x.toInt := by
  have positive : 0 < x.toInt := by omega
  have exact := exactRootPositive positive
  have square := exactRootSq positive
  have share := coarseShare large
  have above : exactRoot x ≤ (sqrt x).toInt := by
    have real : (127 : ℝ) * x.toInt - 8191 ≤ 8192 * (sqrt x).toInt := by
      exact_mod_cast (by omega : 127 * x.toInt - 8191 ≤ 8192 * (sqrt x).toInt)
    have least : (327680000 : ℝ) ≤ x.toInt := by exact_mod_cast large.le
    exact exactRootMost (by linarith) (by nlinarith)
  rw [RootWithin, abs_of_nonneg (sub_nonneg.mpr above), ← share]
  have squares : 25 * (sqrt x).toInt ^ 2 ≤ 4194304 * x.toInt ↔
      (5 * ((sqrt x).toInt : ℝ)) ^ 2 ≤ (8 * exactRoot x) ^ 2 := by
    rw [mul_pow, mul_pow, square, ← Int.cast_le (R := ℝ)]
    push_cast
    constructor <;> intro most <;> linarith
  rw [squares, pow_le_pow_iff_left₀ (by linarith) (by linarith) two_ne_zero]
  constructor <;> intro most <;> linarith

theorem withinSixty (below : x.toInt ≤ 698059348) : RootWithin 60 x := by
  rw [withinSixtyIff large]
  have share : 8192 * (127 * x.toInt / 8192) ≤ 127 * x.toInt := by omega
  by_cases exact : x.toInt ≤ 698059334
  · have squares := mul_self_le_mul_self (by omega : 0 ≤ 8192 * (127 * x.toInt / 8192)) share
    have most := mul_le_mul_of_nonneg_right exact (by omega : 0 ≤ x.toInt)
    nlinarith
  · have root : 127 * x.toInt / 8192 = 10821964 := by omega
    rw [root]
    omega

theorem missesSixty (above : 698059414 ≤ x.toInt) : ¬ RootWithin 60 x := by
  rw [withinSixtyIff large, not_le]
  have share : 127 * x.toInt - 8191 ≤ 8192 * (127 * x.toInt / 8192) := by omega
  by_cases next : x.toInt ≤ 698059477
  · have root : 127 * x.toInt / 8192 = 10821966 := by omega
    rw [root]
    omega
  · nlinarith

end Coarse

/-- Between 0.25 and 1000 the square root is off by what its last step overshoots, less what the
rest of the reciprocal and the cut bits take away; the rest of the reciprocal may take more than two
percent from 26.24 on. Past 5000 the root is 127 / 8192 of the argument and exceeds the exact one by
more than sixty percent from about 10651.5 on. -/
theorem squareRootAccuracy (x : Q16) :
    (16384 ≤ x.toInt → x.toInt ≤ 65536000 →
      ((sqrt x).toInt : ℝ) - exactRoot x =
        (Sqrt.lastOvershoot x - Sqrt.lastRestLoss x - Sqrt.lastCutLoss x) * exactRoot x ∧
      (0 ≤ Sqrt.lastOvershoot x ∧ Sqrt.lastOvershoot x ≤ 1 / 112) ∧
      (0 ≤ Sqrt.lastRestLoss x ∧ Sqrt.lastRestLoss x < √(x.toInt : ℝ) / 65536) ∧
      (0 ≤ Sqrt.lastCutLoss x ∧ Sqrt.lastCutLoss x ≤ 511 / 131072 / √(x.toInt : ℝ)) ∧
      (RootWithin 2 x ↔
        Sqrt.lastRestLoss x + Sqrt.lastCutLoss x ≤ 2 / 100 + Sqrt.lastOvershoot x) ∧
      (x.toInt ≤ 1720137 → RootWithin 2 x) ∧ (x.toInt = 1720138 → ¬ RootWithin 2 x)) ∧
    (327680000 < x.toInt →
      (sqrt x).toInt = 127 * x.toInt / 8192 ∧
      (RootWithin 60 x ↔ 25 * (127 * x.toInt / 8192) ^ 2 ≤ 4194304 * x.toInt) ∧
      (x.toInt ≤ 698059348 → RootWithin 60 x) ∧ (698059414 ≤ x.toInt → ¬ RootWithin 60 x)) := by
  refine ⟨fun low high => ?_, fun large => ⟨coarseShare large, withinSixtyIff large,
    withinSixty large, missesSixty large⟩⟩
  have positive : 0 < x.toInt := by omega
  obtain ⟨-, divisor, near, -⟩ := lastGuessNear low high
  exact ⟨rootError low high, Sqrt.Unbounded.overshootRange positive divisor near,
    Sqrt.Unbounded.restLossRange positive divisor, Sqrt.Unbounded.cutLossRange low high _,
    withinTwoIff low high, withinTwo low, fun here => (missesTwo here).2⟩

theorem greatestRootFar : 16384 ≤ (1720138 : Q16).toInt ∧ (1720138 : Q16).toInt ≤ 65536000 ∧
    (sqrt 1720138).toInt = 329035 ∧ ¬ RootWithin 2 1720138 ∧
    327680000 < greatest.toInt ∧ (sqrt greatest).toInt = 33292287 ∧ ¬ RootWithin 60 greatest := by
  have low : 16384 ≤ (1720138 : Q16).toInt := by decide
  have high : (1720138 : Q16).toInt ≤ 65536000 := by decide
  have large : 327680000 < greatest.toInt := by decide
  obtain ⟨-, -, -, -, -, -, misses⟩ := (squareRootAccuracy 1720138).1 low high
  obtain ⟨share, -, -, far⟩ := (squareRootAccuracy greatest).2 large
  exact ⟨low, high, by decide +kernel, misses rfl, large, share, far (by decide)⟩

end FixedIL.Fixed
