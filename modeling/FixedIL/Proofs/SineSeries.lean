import FixedIL.Proofs.Lanes
import FixedIL.Proofs.NativeAnswers

/-!
The range of the fixed-point sine. Wrapping takes the balanced remainder of an angle, and folding
leaves at most a quarter turn to either side. There the series is the angle times a factor that
falls as its square grows, so that a bound at the ends of an interval holds throughout, and halving
intervals finds the greatest value: a little above one, close to the quarter turn.
-/
namespace FixedIL.Native

section Folding

variable (x : Int32)

theorem wrapInt : (wrapAngle x).toInt = x.toInt.bmod 411775 := by
  have turn : twoPi.toInt = 411775 := rfl
  have half : pi.toInt64.toInt = 205887 := rfl
  have back : (-pi.toInt64).toInt = -205887 := rfl
  have rest : (x.toInt64 % twoPi).toInt = x.toInt.tmod 411775 := by
    rw [Int64.toInt_mod, Int32.toInt_toInt64, turn]
  have whole := Int.mul_tdiv_add_tmod x.toInt 411775
  have low := Int.lt_tmod_of_pos x.toInt (b := 411775) (by decide)
  have high := Int.tmod_lt_of_pos x.toInt (b := 411775) (by decide)
  have balanced : x.toInt.bmod 411775 =
      if x.toInt % 411775 < 205888 then x.toInt % 411775 else x.toInt % 411775 - 411775 :=
    Int.bmod_def ..
  rw [wrapAngle, Int64.toInt_toInt32]
  simp only [Int64.lt_iff_toInt_lt, apply_ite Int64.toInt, Int64.toInt_sub, Int64.toInt_add, rest,
    turn, half, back]
  rw [Int.bmod_eq_of_le (m := 2 ^ 64) (by omega) (by omega),
    Int.bmod_eq_of_le (m := 2 ^ 64) (by omega) (by omega), balanced]
  rw [Int.bmod_eq_of_le (by omega) (by omega)]
  omega

theorem foldRange : (foldAngle x).toInt.natAbs ≤ 102944 := by
  have wrapped := wrapInt x
  have low := Int.le_bmod (x := x.toInt) (m := 411775) (by decide)
  have high := Int.bmod_lt (x := x.toInt) (m := 411775) (by decide)
  have quarter : halfPi.toInt = 102944 := rfl
  have back : (-halfPi).toInt = -102944 := rfl
  have half : pi.toInt = 205887 := rfl
  have whole : (-pi).toInt = -205887 := rfl
  rw [foldAngle]
  simp only [Int32.lt_iff_toInt_lt, quarter, back]
  split
  · rw [Int32.toInt_sub, Int.bmod_eq_of_le (by omega) (by omega)]
    omega
  · split
    · rw [Int32.toInt_sub, Int.bmod_eq_of_le (by omega) (by omega)]
      omega
    · omega

end Folding

section Nesting

def coefficients : List Nat := [10923, 3277, 1560, 910]

def nested (a2 : Int32) : List Nat → Int32
  | [] => Lane.one
  | c :: cs => level a2 (Int32.ofNat c) (nested a2 cs)

theorem Lane.mulOne (a : Int32) : Lane.mul a Lane.one = a := by
  have product : a.toInt * Lane.one.toInt / 65536 = a.toInt :=
    Int.mul_ediv_cancel a.toInt (by decide)
  have low := a.le_toInt
  have high := a.toInt_lt
  apply Int32.toInt_inj.mp
  rw [Lane.mulInt (by omega) (by omega), product]

theorem seriesNested (a : Int32) :
    series a = Lane.mul a (nested (Lane.mul a a) coefficients) := by
  have inner : Lane.sub Lane.one (Lane.mul (Lane.mul a a) 910) =
      level (Lane.mul a a) (Int32.ofNat 910) Lane.one := by
    rw [level, Lane.mulOne]
    rfl
  rw [series, coefficients, nested, nested, nested, nested, nested, ← inner]
  rfl

def factor : List Nat → Nat → Nat → Nat
  | [], _, _ => 65536
  | c :: cs, p, q => 65536 - p * c / 65536 * factor cs q p / 65536

theorem factorMost (cs : List Nat) (p q : Nat) : factor cs p q ≤ 65536 := by
  cases cs with
  | nil => exact Nat.le_refl _
  | cons c cs => exact Nat.sub_le _ _

theorem factorMono (cs : List Nat) {p p' q q' : Nat} (below : p' ≤ p) (above : q ≤ q') :
    factor cs p q ≤ factor cs p' q' := by
  induction cs generalizing p p' q q' with
  | nil => exact Nat.le_refl _
  | cons c cs ih =>
    have scale : p' * c / 65536 ≤ p * c / 65536 :=
      Nat.div_le_div_right (Nat.mul_le_mul_right c below)
    exact Nat.sub_le_sub_left (Nat.div_le_div_right (Nat.mul_le_mul scale (ih above below))) 65536

variable {a2 : Int32} {n : Nat}

theorem levelInt {c inner : Int32} {k t : Nat} (square : a2.toInt = n) (ratio : c.toInt = k)
    (rest : inner.toInt = t) (small : n * k ≤ 65536 * 65536) (most : t ≤ 65536) :
    (level a2 c inner).toInt = (65536 - n * k / 65536 * t / 65536 : Nat) := by
  have unit : Lane.one.toInt = 65536 := rfl
  have scale : n * k / 65536 ≤ 65536 := by omega
  have size : n * k / 65536 * t ≤ 65536 * 65536 := Nat.mul_le_mul scale most
  have first : (Lane.mul a2 c).toInt = (n * k / 65536 : Nat) :=
    Lane.mulNat square ratio (by omega)
  have second : (Lane.mul (Lane.mul a2 c) inner).toInt = (n * k / 65536 * t / 65536 : Nat) :=
    Lane.mulNat first rest (by omega)
  rw [level, Lane.subInt (by omega) (by omega), second, unit]
  omega

theorem nestedInt (square : a2.toInt = n) {cs : List Nat}
    (small : ∀ c ∈ cs, c < 2 ^ 31 ∧ n * c ≤ 65536 * 65536) :
    (nested a2 cs).toInt = factor cs n n := by
  induction cs with
  | nil => rfl
  | cons c cs ih =>
    obtain ⟨fits, scale⟩ := small c List.mem_cons_self
    have inner := ih fun d member => small d (List.mem_cons_of_mem _ member)
    exact levelInt square (Int32.toInt_ofNat_of_lt fits) inner scale (factorMost cs n n)

variable {a : Int32}

theorem squareInt (few : a.toInt.natAbs ≤ 102944) :
    (Lane.mul a a).toInt = (a.toInt.natAbs * a.toInt.natAbs / 65536 : Nat) := by
  have most := Nat.mul_le_mul few few
  have product : a.toInt * a.toInt = (a.toInt.natAbs * a.toInt.natAbs : Nat) := by
    rw [Int.natCast_mul, Int.natAbs_mul_self']
  rw [Lane.mulInt (by omega) (by omega), product]
  norm_cast

theorem factorInt (few : a.toInt.natAbs ≤ 102944) :
    (nested (Lane.mul a a) coefficients).toInt =
      factor coefficients (a.toInt.natAbs * a.toInt.natAbs / 65536)
        (a.toInt.natAbs * a.toInt.natAbs / 65536) := by
  have most := Nat.mul_le_mul few few
  have least : ∀ c ∈ coefficients, c ≤ 10923 := by decide
  refine nestedInt (squareInt few) fun c member => ⟨?_, ?_⟩
  · exact Nat.lt_of_le_of_lt (least c member) (by decide)
  · exact (Nat.mul_le_mul (by omega) (least c member)).trans (by decide : 161706 * 10923 ≤ _)

theorem seriesInt (few : a.toInt.natAbs ≤ 102944) :
    (series a).toInt = a.toInt * (factor coefficients (a.toInt.natAbs * a.toInt.natAbs / 65536)
      (a.toInt.natAbs * a.toInt.natAbs / 65536) : Nat) / 65536 := by
  have scale := factorInt few
  have most := factorMost coefficients (a.toInt.natAbs * a.toInt.natAbs / 65536)
    (a.toInt.natAbs * a.toInt.natAbs / 65536)
  generalize factor coefficients _ _ = t at scale most
  have size : (a.toInt * t).natAbs ≤ 102944 * 65536 := by
    rw [Int.natAbs_mul, Int.natAbs_natCast]
    exact Nat.mul_le_mul few most
  rw [seriesNested, Lane.mulInt (by rw [scale]; omega) (by rw [scale]; omega), scale]

end Nesting

section Halving

def peak (l u : Nat) : Nat := u * factor coefficients (l * l / 65536) (u * u / 65536)

theorem peakMost {l a u : Nat} (above : l ≤ a) (below : a ≤ u) : peak a a ≤ peak l u :=
  Nat.mul_le_mul below (factorMono coefficients
    (Nat.div_le_div_right (Nat.mul_le_mul above above))
    (Nat.div_le_div_right (Nat.mul_le_mul below below)))

def peaksBelow (most : Nat) : Nat → Nat → Nat → Bool
  | 0, l, u => peak l u ≤ most
  | n + 1, l, u =>
    peak l u ≤ most ||
      (peaksBelow most n l ((l + u) / 2) && peaksBelow most n ((l + u) / 2 + 1) u)

theorem peaksBelowSound {most n l u a : Nat} (found : peaksBelow most n l u = true)
    (above : l ≤ a) (below : a ≤ u) : peak a a ≤ most := by
  induction n generalizing l u with
  | zero => exact (peakMost above below).trans (of_decide_eq_true found)
  | succ n ih =>
    rw [peaksBelow, Bool.or_eq_true, Bool.and_eq_true, decide_eq_true_iff] at found
    rcases found with whole | ⟨left, right⟩
    · exact (peakMost above below).trans whole
    · rcases Nat.lt_or_ge ((l + u) / 2) a with far | near
      · exact ih right far below
      · exact ih left above near

theorem peakFold {a : Nat} (few : a ≤ 102944) : peak a a ≤ 65539 * 65536 - 1 :=
  peaksBelowSound (n := 17) (l := 0) (u := 102944) (by decide +kernel) (Nat.zero_le a) few

theorem peakTame {a : Nat} (few : a ≤ 102448) : peak a a ≤ 65536 * 65536 :=
  peaksBelowSound (n := 17) (l := 0) (u := 102448) (by decide +kernel) (Nat.zero_le a) few

end Halving

section Range

variable {a : Int32}

theorem seriesPeak (few : a.toInt.natAbs ≤ 102944) :
    (series a).toInt = peak a.toInt.natAbs a.toInt.natAbs / 65536 ∨
      (series a).toInt = -(peak a.toInt.natAbs a.toInt.natAbs : Int) / 65536 := by
  rw [seriesInt few, peak, Int.natCast_mul, ← Int.neg_mul]
  -- Rounding down takes a negative angle away from zero, so that the two ends differ by one.
  rcases Int.natAbs_eq a.toInt with above | below
  · exact .inl (by rw [← above])
  · exact .inr (by rw [← below])

theorem seriesRange (few : a.toInt.natAbs ≤ 102944) :
    -65539 ≤ (series a).toInt ∧ (series a).toInt ≤ 65538 := by
  have most := peakFold few
  rcases seriesPeak few with up | down <;> omega

theorem seriesTame (few : a.toInt.natAbs ≤ 102448) :
    -65536 ≤ (series a).toInt ∧ (series a).toInt ≤ 65536 := by
  have most := peakTame few
  rcases seriesPeak (few.trans (by decide)) with up | down <;> omega

end Range

open Builtin (answer? intsAnswer)

theorem sinAnswer (x : Int32) : answer? "qs_sin_q32" 1 [x] = some [sinFixed x] :=
  congrArg some (intsAnswer (f := fun a => [sinFixed (a 0)]) [x] rfl)

theorem cosAnswer (x : Int32) : answer? "qs_cos_q32" 1 [x] = some [cosFixed x] :=
  congrArg some (intsAnswer (f := fun a => [cosFixed (a 0)]) [x] rfl)

/-- Sine and cosine are the series at a folded angle, at most three units beyond one and not at all
unless the angle is within 496 units of a quarter turn. -/
theorem sineRange (x : Int32) :
    answer? "qs_sin_q32" 1 [x] = some [series (foldAngle x)] ∧
    answer? "qs_cos_q32" 1 [x] = some [series (foldAngle (Lane.add x halfPi))] ∧
    ∀ a ∈ [foldAngle x, foldAngle (Lane.add x halfPi)], a.toInt.natAbs ≤ 102944 ∧
      (-65539 ≤ (series a).toInt ∧ (series a).toInt ≤ 65538) ∧
      (a.toInt.natAbs ≤ 102448 → -65536 ≤ (series a).toInt ∧ (series a).toInt ≤ 65536) := by
  refine ⟨sinAnswer x, cosAnswer x, fun a member => ?_⟩
  have few : a.toInt.natAbs ≤ 102944 := by
    rcases List.mem_pair.mp member with rfl | rfl
    · exact foldRange x
    · exact foldRange (Lane.add x halfPi)
  exact ⟨few, seriesRange few, seriesTame⟩

theorem tameSine :
    (foldAngle 102448).toInt.natAbs ≤ 102448 ∧
    answer? "qs_sin_q32" 1 [102448] = some [series (foldAngle 102448)] ∧
    -65536 ≤ (series (foldAngle 102448)).toInt ∧ (series (foldAngle 102448)).toInt ≤ 65536 := by
  have few : (foldAngle 102448).toInt.natAbs ≤ 102448 := by decide +kernel
  obtain ⟨sine, -, range⟩ := sineRange 102448
  exact ⟨few, sine, (range _ List.mem_cons_self).2.2 few⟩

/-- Both ends of the range are reached, next to the quarter turns. -/
theorem sineBeyondOne :
    answer? "qs_sin_q32" 1 [102857] = some [65538] ∧
    answer? "qs_sin_q32" 1 [-102857] = some [-65539] ∧
    answer? "qs_cos_q32" 1 [-87] = some [65538] ∧
    ¬ ∀ x s : Int32, answer? "qs_sin_q32" 1 [x] = some [s] →
      -65536 ≤ s.toInt ∧ s.toInt ≤ 65536 := by
  have up : answer? "qs_sin_q32" 1 [102857] = some [65538] := by
    rw [sinAnswer, show sinFixed 102857 = 65538 by decide +kernel]
  have down : answer? "qs_sin_q32" 1 [-102857] = some [-65539] := by
    rw [sinAnswer, show sinFixed (-102857) = -65539 by decide +kernel]
  have ahead : answer? "qs_cos_q32" 1 [-87] = some [65538] := by
    rw [cosAnswer, show cosFixed (-87) = 65538 by decide +kernel]
  exact ⟨up, down, ahead, fun unit => absurd (unit 102857 65538 up).2 (by decide)⟩

end FixedIL.Native
