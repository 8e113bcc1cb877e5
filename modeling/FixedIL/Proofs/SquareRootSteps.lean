import FixedIL.Proofs.Reciprocals
import Mathlib.Algebra.Order.Ring.Int
import Mathlib.Tactic.Linarith
import Mathlib.Tactic.Ring

/-!
The square root is the one that numbers without a bound give. A guess is never below a multiple of
the argument that a step halves, so that the reciprocal of a guess is small enough for every
product and sum of a step to keep to its word, and no step comes to a guess of zero.
-/
namespace FixedIL.Fixed

namespace Sqrt

namespace Unbounded

def scaled (x : Int) : Int := x * 65536

def clamp (guess : Int) : Int := if guess < 2147483647 then guess else 2147483647

def quotient (scaled guess : Int) : Int := scaled * (2147483648 / clamp guess) * 2 / 65536

def refine (scaled guess : Int) : Int :=
  let next := (guess + quotient scaled guess) / 2
  if next = 0 then 1 else next

def initial (x : Int) : Int :=
  let first := scaled x / 512
  if first < 1 then 1 else first

def guess (x : Int) : Nat → Int
  | 0 => initial x
  | k + 1 => refine (scaled x) (guess x k)

def root (x : Int) : Int := if x ≤ 0 then 0 else guess x steps / 256

variable {x g : Int} {k : Nat}

theorem reciprocalBound (positive : 0 < x) (small : x < 2 ^ 31) (above : 4 * x ≤ g) :
    0 ≤ 2147483648 / clamp g ∧ x * (2147483648 / clamp g) < 2 ^ 31 := by
  unfold clamp
  split
  · have nonneg : 0 ≤ 2147483648 / g := Int.ediv_nonneg (by decide) (by omega)
    have part : 2147483648 / g * g ≤ 2147483648 := Int.ediv_mul_le _ (by omega)
    exact ⟨nonneg, by nlinarith⟩
  · exact ⟨by decide, by omega⟩

theorem quotientValue (x g : Int) : quotient (scaled x) g = 2 * (x * (2147483648 / clamp g)) := by
  have whole : scaled x * (2147483648 / clamp g) * 2 =
      2 * (x * (2147483648 / clamp g)) * 65536 := by
    rw [scaled]
    ring
  rw [quotient, whole, Int.mul_ediv_cancel _ (by decide)]

theorem refineBounds (positive : 0 < x) (small : x < 2 ^ 31) (above : 4 * x ≤ g)
    (below : g < 2 ^ 38) : refine (scaled x) g = (g + quotient (scaled x) g) / 2 ∧
      g / 2 ≤ refine (scaled x) g ∧ refine (scaled x) g < 2 ^ 38 := by
  obtain ⟨nonneg, bound⟩ := reciprocalBound positive small above
  have value := quotientValue x g
  have low : 0 ≤ x * (2147483648 / clamp g) := Int.mul_nonneg positive.le nonneg
  have next : refine (scaled x) g = (g + quotient (scaled x) g) / 2 := if_neg (by omega)
  exact ⟨next, by omega, by omega⟩

theorem fourfold (positive : 0 < x) (few : k < steps) (low : x * 2 ^ (7 - k) ≤ g) : 4 * x ≤ g := by
  have before : k < 6 := few
  have power : (2 : Int) ^ 2 ≤ 2 ^ (7 - k) := pow_le_pow_right₀ (by decide) (by omega)
  calc 4 * x = x * 2 ^ 2 := by ring
    _ ≤ x * 2 ^ (7 - k) := mul_le_mul_of_nonneg_left power positive.le
    _ ≤ g := low

theorem guessZero (positive : 0 < x) : guess x 0 = x * 128 := by
  have start : scaled x / 512 = x * 128 := by
    rw [scaled]
    omega
  rw [guess, initial, start]
  exact if_neg (by omega)

theorem guessBounds (positive : 0 < x) (small : x < 2 ^ 31) (few : k ≤ steps) :
    x * 2 ^ (7 - k) ≤ guess x k ∧ guess x k < 2 ^ 38 := by
  induction k with
  | zero =>
    rw [guessZero positive]
    exact ⟨le_rfl, by omega⟩
  | succ k ih =>
    have before : k < 6 := few
    obtain ⟨low, high⟩ := ih before.le
    obtain ⟨-, kept, below⟩ := refineBounds positive small (fourfold positive few low) high
    -- A step keeps at least half of the guess, and the multiple that bounds it halves with it.
    have halved : x * 2 ^ (7 - k) = 2 * (x * 2 ^ (7 - (k + 1))) := by
      rw [show 7 - k = 7 - (k + 1) + 1 by omega, pow_succ]
      ring
    exact ⟨by rw [guess]; omega, below⟩

end Unbounded

variable {x : Q16} {g : Int64} {k : Nat}

theorem clampInt (g : Int64) : (clamp g).toInt = Unbounded.clamp g.toInt := by
  have bound : greatest.toInt64.toInt = 2147483647 := rfl
  rw [clamp, apply_ite Int64.toInt, Unbounded.clamp, bound]
  simp only [Int64.lt_iff_toInt_lt, bound]

theorem divisorInt (positive : 0 < g.toInt) :
    ((clamp g).toUInt64.toUInt32.toNat : Int) = Unbounded.clamp g.toInt := by
  have range := clampRange positive
  have word := Word.natOfNonneg range.1.le
  rw [UInt64.toNat_toUInt32, Nat.mod_eq_of_lt (by omega), word, clampInt]

theorem scaledInt (positive : 0 < x.toInt) : (scaled x).toInt = Unbounded.scaled x.toInt := by
  have below := x.toInt_lt
  have wide : x.toInt64.toInt = x.toInt := Int32.toInt_toInt64 x
  have word : (x.toInt64.toUInt64.toNat : Int) = x.toInt := by
    rw [Word.natOfNonneg (by omega), wide]
  have shifted : (scaled x).toInt = ((x.toInt64.toUInt64.toNat <<< 16 : Nat) : Int).bmod (2 ^ 64) :=
    BitVec.toInt_shiftLeft
  rw [shifted, Nat.shiftLeft_eq, Int.natCast_mul, word, Unbounded.scaled]
  exact Int.bmod_eq_of_le (by omega) (by omega)

theorem firstInt (positive : 0 < x.toInt) : (scaled x >>> 9).toInt = x.toInt * 128 := by
  rw [Word.shiftRightInt (k := 9) _ rfl, scaledInt positive, Unbounded.scaled]
  omega

theorem firstUnguarded (positive : 0 < x.toInt) : ¬ scaled x >>> 9 < 1 := fun less => by
  have one : (1 : Int64).toInt = 1 := rfl
  rw [Int64.lt_iff_toInt_lt, firstInt positive, one] at less
  omega

def stepReciprocal (x : Q16) (k : Nat) : UInt64 :=
  (reciprocal (clamp (guess x k)).toUInt64.toUInt32).toUInt64

def stepQuotient (x : Q16) (k : Nat) : UInt64 := scaleBy (scaled x).toUInt64 (stepReciprocal x k)

theorem stepQuotientInt (positive : 0 < x.toInt) (above : 4 * x.toInt ≤ (guess x k).toInt) :
    (scaled x).toUInt64.toNat * (stepReciprocal x k).toNat * 2 < 2 ^ 64 ∧
      ((stepQuotient x k).toNat : Int) =
        Unbounded.quotient (Unbounded.scaled x.toInt) (guess x k).toInt := by
  have number : (scaled x).toInt = x.toInt * 65536 := scaledInt positive
  have word : ((scaled x).toUInt64.toNat : Int) = x.toInt * 65536 := by
    rw [Word.natOfNonneg (by omega), number]
  have recip : ((stepReciprocal x k).toNat : Int) =
      2147483648 / Unbounded.clamp (guess x k).toInt := by
    rw [stepReciprocal, UInt32.toNat_toUInt64, reciprocalNat, Int.natCast_ediv,
      divisorInt (by omega)]
    rfl
  have product : ((scaled x).toUInt64.toNat * (stepReciprocal x k).toNat : Nat) =
      x.toInt * (2147483648 / Unbounded.clamp (guess x k).toInt) * 65536 := by
    rw [Int.natCast_mul, word, recip]
    ring
  have bound := (Unbounded.reciprocalBound positive x.toInt_lt above).2
  have small : (scaled x).toUInt64.toNat * (stepReciprocal x k).toNat * 2 < 2 ^ 64 := by omega
  refine ⟨small, ?_⟩
  rw [stepQuotient, scaleByNat small, Unbounded.quotientValue]
  omega

/-- A step of the iteration in which nothing overflows and no guard against zero is taken. -/
structure StepSafe (x : Q16) (k : Nat) : Prop where
  least : x.toInt * 2 ^ (7 - k) ≤ (guess x k).toInt
  divisor : (clamp (guess x k)).toUInt64.toUInt32 ≠ 0
  product : (scaled x).toUInt64.toNat * (stepReciprocal x k).toNat * 2 < 2 ^ 64
  sum : (guess x k).toInt + (stepQuotient x k).toNat < 2 ^ 63
  nonzero : (guess x k + (stepQuotient x k).toInt64) >>> 1 ≠ 0
  next : guess x (k + 1) = (guess x k + (stepQuotient x k).toInt64) >>> 1

theorem stepSafe (positive : 0 < x.toInt) (few : k < steps)
    (same : (guess x k).toInt = Unbounded.guess x.toInt k) :
    StepSafe x k ∧ (guess x (k + 1)).toInt = Unbounded.guess x.toInt (k + 1) := by
  obtain ⟨low, high⟩ := Unbounded.guessBounds positive x.toInt_lt few.le
  have above := Unbounded.fourfold positive few low
  obtain ⟨refined, kept, below⟩ := Unbounded.refineBounds positive x.toInt_lt above high
  rw [← same] at low high above refined kept below
  obtain ⟨product, quotient⟩ := stepQuotientInt positive above
  have value := Unbounded.quotientValue x.toInt (guess x k).toInt
  have bound := (Unbounded.reciprocalBound positive x.toInt_lt above).2
  have sum : (guess x k).toInt + (stepQuotient x k).toNat < 2 ^ 63 := by omega
  have halved : ((guess x k + (stepQuotient x k).toInt64) >>> 1).toInt =
      Unbounded.refine (Unbounded.scaled x.toInt) (guess x k).toInt := by
    rw [Word.shiftRightInt (k := 1) _ rfl, Int64.toInt_add, Word.intOfSmall (by omega),
      Int.bmod_eq_of_le (by omega) (by omega), refined, quotient]
    rfl
  have nonzero : (guess x k + (stepQuotient x k).toInt64) >>> 1 ≠ 0 := fun zero => by
    have none : (0 : Int64).toInt = 0 := rfl
    rw [zero] at halved
    omega
  have next : guess x (k + 1) = (guess x k + (stepQuotient x k).toInt64) >>> 1 := if_neg nonzero
  have divisor : (clamp (guess x k)).toUInt64.toUInt32 ≠ 0 := fun zero => by
    have word := divisorInt (g := guess x k) (by omega)
    have range := clampRange (g := guess x k) (by omega)
    rw [zero, UInt32.toNat_zero, ← clampInt] at word
    omega
  refine ⟨⟨low, divisor, product, sum, nonzero, next⟩, ?_⟩
  rw [next, halved, same]
  rfl

theorem guessInt (positive : 0 < x.toInt) (few : k ≤ steps) :
    (guess x k).toInt = Unbounded.guess x.toInt k := by
  induction k with
  | zero =>
    rw [guess, initial, if_neg (firstUnguarded positive), firstInt positive,
      Unbounded.guessZero positive]
  | succ k ih => exact (stepSafe positive few (ih (Nat.le_of_lt few))).2

end Sqrt

/-- For a positive number no step divides by zero, overflows or takes a guard against zero, so that
the root is the one that numbers without a bound give. -/
theorem squareRootSafe {x : Q16} (positive : 0 < x) :
    (Sqrt.scaled x).toInt = Sqrt.Unbounded.scaled x.toInt ∧ ¬ Sqrt.scaled x >>> 9 < 1 ∧
    (∀ k < Sqrt.steps, Sqrt.StepSafe x k) ∧
    2 * x.toInt ≤ (Sqrt.guess x Sqrt.steps).toInt ∧
    (∀ k ≤ Sqrt.steps, (Sqrt.guess x k).toInt = Sqrt.Unbounded.guess x.toInt k) ∧
    (Sqrt.guess x Sqrt.steps >>> 8).toInt < 2 ^ 31 ∧
    0 ≤ (sqrt x).toInt ∧ (sqrt x).toInt = Sqrt.Unbounded.root x.toInt := by
  have number : 0 < x.toInt := Int32.lt_iff_toInt_lt.mp positive
  obtain ⟨low, high⟩ := Sqrt.Unbounded.guessBounds number x.toInt_lt le_rfl
  have last := Sqrt.guessInt number (le_refl Sqrt.steps)
  have twice : 2 * x.toInt ≤ Sqrt.Unbounded.guess x.toInt Sqrt.steps := by
    rw [Int.mul_comm]
    exact low
  have shifted : (Sqrt.guess x Sqrt.steps >>> 8).toInt =
      Sqrt.Unbounded.guess x.toInt Sqrt.steps / 256 := by
    rw [Word.shiftRightInt (k := 8) _ rfl, last]
    rfl
  have root : (sqrt x).toInt = Sqrt.Unbounded.guess x.toInt Sqrt.steps / 256 := by
    rw [sqrt, if_neg (Int32.not_le.mpr positive), Int64.toInt_toInt32, shifted]
    exact Int.bmod_eq_of_le (by omega) (by omega)
  refine ⟨Sqrt.scaledInt number, Sqrt.firstUnguarded number,
    fun k few => (Sqrt.stepSafe number few (Sqrt.guessInt number few.le)).1, last ▸ twice,
    fun k few => Sqrt.guessInt number few, by omega, by omega, ?_⟩
  rw [root, Sqrt.Unbounded.root, if_neg (by omega)]

theorem greatestRootSafe : 0 < greatest ∧ Sqrt.StepSafe greatest 5 ∧
    (Sqrt.guess greatest Sqrt.steps).toInt = 8522825724 ∧
    (sqrt greatest).toInt = Sqrt.Unbounded.root 2147483647 := by
  have positive : 0 < greatest := by decide
  obtain ⟨-, -, safe, -, same, -, -, root⟩ := squareRootSafe positive
  refine ⟨positive, safe 5 (by decide), ?_, root⟩
  rw [same Sqrt.steps le_rfl]
  rfl

end FixedIL.Fixed
