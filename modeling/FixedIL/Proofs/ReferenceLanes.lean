import FixedIL.Proofs.SineSeries

/-!
The native routines compute with the reference arithmetic. Each lane operation gives the bits of
the Q16.16 one, whatever wraps on the way, so that the colour ramp, the sine series and the rotation
are the same expressions over either of them.
-/
namespace FixedIL

namespace Fixed

def clamp01 (a : Q16) : Q16 := min (max a 0) one

def hueLanes (hue : Q16) : List Q16 :=
  let h6 := (hue.toUInt32 * 6).toInt32
  [clamp01 (sub (abs (sub h6 (3 * one))) one),
    clamp01 (sub (2 * one) (abs (sub h6 (2 * one)))),
    clamp01 (sub (2 * one) (abs (sub h6 (4 * one))))]

def sineLevel (a2 coefficient inner : Q16) : Q16 := sub one (mul (mul a2 coefficient) inner)

def sineSeries (a : Q16) : Q16 :=
  let a2 := mul a a
  let innermost := sub one (mul a2 910)
  mul a (sineLevel a2 10923 (sineLevel a2 3277 (sineLevel a2 1560 innermost)))

def rotatedLanes (x y cosine sine : Q16) : List Q16 :=
  [sub (mul x cosine) (mul y sine), add (mul x sine) (mul y cosine)]

end Fixed

namespace Native

namespace Lane

theorem clampFixed (a : Int32) : clamp01 a = Fixed.clamp01 a := by
  apply Int32.toInt_inj.mp
  have one : Fixed.one.toInt = 65536 := rfl
  rw [clampInt, Fixed.clamp01, Fixed.min, Fixed.max]
  simp only [Int32.lt_iff_toInt_lt, Int32.toInt_zero, one]
  split <;> split <;> simp only [Int32.toInt_zero, one] at * <;> omega

end Lane

theorem hueReference (hue : Int32) : (hueToRgbFixed hue).toList = Fixed.hueLanes hue := by
  simp only [hueToRgbFixed, Triple.toList, Lane.clampFixed, Lane.subFixed, Lane.absFixed]
  rfl

theorem levelReference (a2 coefficient inner : Int32) :
    level a2 coefficient inner = Fixed.sineLevel a2 coefficient inner := by
  rw [level, Lane.subFixed, Lane.mulFixed, Lane.mulFixed]
  rfl

theorem seriesReference (a : Int32) : series a = Fixed.sineSeries a := by
  simp only [series, levelReference, Lane.subFixed, Lane.mulFixed]
  rfl

theorem rotateReference (x y angle : Int32) :
    rotateFixed x y angle = Fixed.rotatedLanes x y (cosFixed angle) (sinFixed angle) := by
  simp only [rotateFixed, Lane.addFixed, Lane.subFixed, Lane.mulFixed]
  rfl

open Builtin (answer? intsAnswer)

theorem hueAnswer (hue : Int32) :
    answer? "qs_hue2rgb_q32" 3 [hue] = some (hueToRgbFixed hue).toList :=
  congrArg some (intsAnswer (f := fun a => (hueToRgbFixed (a 0)).toList) [hue] rfl)

theorem rotateAnswer (x y angle : Int32) :
    answer? "qs_rotate2_q32" 2 [x, y, angle] = some (rotateFixed x y angle) :=
  congrArg some (intsAnswer (f := fun a => rotateFixed (a 0) (a 1) (a 2)) [x, y, angle] rfl)

/-- On all lanes the native primitives are those of the reference, and so are the hue ramp and the
rotation, down to the sine and the cosine that it turns by. -/
theorem lanesAreReference (a b : Int32) :
    (Lane.add a b = Fixed.add a b ∧ Lane.sub a b = Fixed.sub a b ∧
      Lane.mul a b = Fixed.mul a b ∧ Lane.div a b = Fixed.div a b ∧
      Lane.abs a = Fixed.abs a ∧ Lane.min a b = Fixed.min a b ∧
      Lane.clamp01 a = Fixed.min (Fixed.max a 0) 65536) ∧
    (∀ hue, answer? "qs_hue2rgb_q32" 3 [hue] = some (Fixed.hueLanes hue)) ∧
    ∀ x y angle, ∃ cosine sine,
      answer? "qs_cos_q32" 1 [angle] = some [cosine] ∧
      answer? "qs_sin_q32" 1 [angle] = some [sine] ∧
      cosine = Fixed.sineSeries (foldAngle (Fixed.add angle halfPi)) ∧
      sine = Fixed.sineSeries (foldAngle angle) ∧
      answer? "qs_rotate2_q32" 2 [x, y, angle] = some (Fixed.rotatedLanes x y cosine sine) := by
  refine ⟨⟨Lane.addFixed a b, Lane.subFixed a b, Lane.mulFixed a b, Lane.divFixed a b,
    Lane.absFixed a, Lane.minFixed a b, Lane.clampFixed a⟩, fun hue => ?_, fun x y angle => ?_⟩
  · rw [hueAnswer, hueReference]
  · refine ⟨cosFixed angle, sinFixed angle, cosAnswer angle, sinAnswer angle, ?_, ?_, ?_⟩
    · rw [cosFixed, sinFixed, seriesReference, Lane.addFixed]
    · rw [sinFixed, seriesReference]
    · rw [rotateAnswer, rotateReference]

end Native
end FixedIL
