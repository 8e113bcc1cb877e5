import FixedIL.Proofs.SineSeries
import Mathlib.Data.Int.ModEq

/-!
How sine and cosine repeat after a whole turn. Wrapping takes the balanced remainder of an angle, so
that the sine does not tell congruent angles apart. The cosine first adds a quarter turn, in the
bits of a lane: above `lastLead` the sum wraps, and `2 ^ 32` is no multiple of the turn.
-/
namespace FixedIL.Native

def lastLead : Int := 2 ^ 31 - 1 - 102944

/-- An angle whose cosine is the one that is computed. Wrapping takes off `2 ^ 32`, which is 154046
more than 10430 turns. -/
def ledAngle (x : Int32) : Int := if x.toInt ≤ lastLead then x.toInt else x.toInt - 154046

section Congruent

variable {x y : Int32}

theorem sinCongruent (congruent : x.toInt ≡ y.toInt [ZMOD 411775]) : sinFixed x = sinFixed y := by
  have wrapped : wrapAngle x = wrapAngle y := by
    rw [← Int32.toInt_inj, wrapInt, wrapInt]
    calc x.toInt.bmod 411775
      _ = (x.toInt % 411775).bmod 411775 := (Int.emod_bmod ..).symm
      _ = (y.toInt % 411775).bmod 411775 := congrArg (Int.bmod · 411775) congruent
      _ = y.toInt.bmod 411775 := Int.emod_bmod ..
  rw [sinFixed, sinFixed, foldAngle, foldAngle, wrapped]

theorem leadInt (x : Int32) :
    (Lane.add x halfPi).toInt ≡ ledAngle x + 102944 [ZMOD 411775] := by
  have low := x.le_toInt
  have high := x.toInt_lt
  have sum : (Lane.add x halfPi).toInt = (x.toInt + 102944).bmod (2 ^ 32) := by
    rw [Lane.addFixed, Fixed.add, Int32.toInt_add]
    rfl
  rw [sum, ledAngle, lastLead]
  split
  · rw [Int.bmod_eq_of_le (by omega) (by omega)]
  · have wraps : (x.toInt + 102944).bmod (2 ^ 32) = x.toInt + 102944 - 2 ^ 32 := by
      rw [← Int.sub_bmod_right, Int.bmod_eq_of_le (by omega) (by omega)]
      rfl
    have turns : x.toInt - 154046 + 102944 - (x.toInt + 102944 - 2 ^ 32) = 411775 * 10430 := by
      ring
    exact wraps ▸ Int.modEq_iff_dvd.mpr ⟨10430, turns⟩

theorem cosCongruent (congruent : ledAngle x ≡ ledAngle y [ZMOD 411775]) :
    cosFixed x = cosFixed y := by
  have ahead := (leadInt x).trans ((congruent.add_right 102944).trans (leadInt y).symm)
  exact sinCongruent ahead

theorem ledBelow (below : x.toInt ≤ lastLead) : ledAngle x = x.toInt := if_pos below

theorem ledAbove (above : lastLead < x.toInt) : ledAngle x = x.toInt - 154046 :=
  if_neg (not_le.mpr above)

end Congruent

open Builtin (answer?)

def Alike (symbol : String) (x y : Int32) : Prop :=
  ∃ v, answer? symbol 1 [x] = some [v] ∧ answer? symbol 1 [y] = some [v]

theorem alikeSin {x y : Int32} : Alike "qs_sin_q32" x y ↔ sinFixed x = sinFixed y := by
  simp [Alike, sinAnswer, eq_comm]

theorem alikeCos {x y : Int32} : Alike "qs_cos_q32" x y ↔ cosFixed x = cosFixed y := by
  simp [Alike, cosAnswer, eq_comm]

/-- Angles that differ by whole turns have one sine, and one cosine unless the quarter turn wraps.
An angle for which it wraps has the cosine of those 154046 units lower. -/
theorem turnPeriod (x y : Int32) :
    (x.toInt ≡ y.toInt [ZMOD 411775] → Alike "qs_sin_q32" x y ∧
      (x.toInt ≤ lastLead → y.toInt ≤ lastLead → Alike "qs_cos_q32" x y)) ∧
    (lastLead < x.toInt → y.toInt ≤ lastLead → x.toInt - 154046 ≡ y.toInt [ZMOD 411775] →
      Alike "qs_cos_q32" x y) := by
  refine ⟨fun congruent => ⟨alikeSin.mpr (sinCongruent congruent), fun below below' => ?_⟩,
    fun above below' congruent => ?_⟩
  · rw [alikeCos]
    exact cosCongruent (by rwa [ledBelow below, ledBelow below'])
  · rw [alikeCos]
    exact cosCongruent (by rwa [ledAbove above, ledBelow below'])

theorem turnsAcrossLane :
    ((-2147483648 : Int32).toInt ≡ (2147329602 : Int32).toInt [ZMOD 411775] ∧
      Alike "qs_sin_q32" (-2147483648) 2147329602 ∧
      (2147329602 : Int32).toInt ≤ lastLead ∧ Alike "qs_cos_q32" (-2147483648) 2147329602) ∧
    lastLead < (2147483647 : Int32).toInt ∧
      (2147483647 : Int32).toInt - 154046 ≡ (-2147071874 : Int32).toInt [ZMOD 411775] ∧
      Alike "qs_cos_q32" 2147483647 (-2147071874) := by
  have turns : (-2147483648 : Int32).toInt ≡ (2147329602 : Int32).toInt [ZMOD 411775] := by decide
  have below : (2147329602 : Int32).toInt ≤ lastLead := by decide
  have above : lastLead < (2147483647 : Int32).toInt := by decide
  have set : (2147483647 : Int32).toInt - 154046 ≡ (-2147071874 : Int32).toInt [ZMOD 411775] := by
    decide
  obtain ⟨sine, cosine⟩ := (turnPeriod (-2147483648) 2147329602).1 turns
  have across := (turnPeriod 2147483647 (-2147071874)).2 above (by decide) set
  exact ⟨⟨turns, sine, below, cosine (by decide) below⟩, above, set, across⟩

/-- One unit above the last angle that can be led, the cosine is not that of the turn before. -/
theorem cosineBreaks :
    answer? "qs_cos_q32" 1 [2147380704] = some [-60478] ∧
    answer? "qs_cos_q32" 1 [2146968929] = some [60477] ∧
    ¬ ∀ x y : Int32, x.toInt ≡ y.toInt [ZMOD 411775] →
      Alike "qs_sin_q32" x y ∧ Alike "qs_cos_q32" x y := by
  have above : cosFixed 2147380704 = -60478 := by decide +kernel
  have below : cosFixed 2146968929 = 60477 := by decide +kernel
  refine ⟨by rw [cosAnswer, above], by rw [cosAnswer, below], fun periodic => ?_⟩
  have same := alikeCos.mp (periodic 2147380704 2146968929 (by decide)).2
  rw [above, below] at same
  exact absurd same (by decide)

end FixedIL.Native
