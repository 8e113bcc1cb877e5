import FixedIL.Proofs.Lanes
import FixedIL.Proofs.NativeAnswers

/-!
Colours in fixed point stay in gamut. For every hue one lane of the ramp is full, so that the lanes
of a colour lie between zero and its value and one of them is the value, which the way back finds as
the largest lane. On the way back no divisor is zero, but for a largest lane of minus one, and a
quotient that is never too large keeps hue and saturation between zero and one.
-/
namespace FixedIL.Native

section Ramp

variable {h lane s v : Int32}

theorem rampRange (h : Int32) :
    ∀ lane ∈ (hueToRgbFixed h).toList, 0 ≤ lane.toInt ∧ lane.toInt ≤ 65536 := by
  intro lane member
  simp only [hueToRgbFixed, Triple.toList, List.mem_cons, List.not_mem_nil, or_false] at member
  rcases member with red | green | blue <;> rw [‹lane = _›, Lane.clampInt] <;> omega

theorem sixfoldInt (low : 0 ≤ h.toInt) (high : h.toInt ≤ 65536) :
    ((h.toUInt32 * 6).toInt32).toInt = 6 * h.toInt := by
  have six : (6 : Int32).toInt = 6 := rfl
  have product : (h.toUInt32 * 6).toInt32 = h * 6 := rfl
  rw [product, Int32.toInt_mul, six, Int.bmod_eq_of_le (by omega) (by omega), Int.mul_comm]

theorem distanceInt {n : Int32} (low : 0 ≤ h.toInt) (high : h.toInt ≤ 65536)
    (near : 0 ≤ n.toInt ∧ n.toInt ≤ 262144) :
    (Lane.abs (Lane.sub (h.toUInt32 * 6).toInt32 n)).toInt = (6 * h.toInt - n.toInt).natAbs := by
  have six := sixfoldInt low high
  have difference : (Lane.sub (h.toUInt32 * 6).toInt32 n).toInt = 6 * h.toInt - n.toInt := by
    rw [Lane.subInt (by omega) (by omega), six]
  rw [Lane.absInt (by omega), difference]

theorem troughInt {m n : Int32} (low : 0 ≤ h.toInt) (high : h.toInt ≤ 65536)
    (width : m.toInt = 65536) (near : 0 ≤ n.toInt ∧ n.toInt ≤ 262144) :
    (Lane.clamp01 (Lane.sub (Lane.abs (Lane.sub (h.toUInt32 * 6).toInt32 n)) m)).toInt =
      Max.max 0 (Min.min ((6 * h.toInt - n.toInt).natAbs - 65536 : Int) 65536) := by
  have far := distanceInt low high near
  rw [Lane.clampInt, Lane.subInt (by omega) (by omega), far, width]

theorem tentInt {m n : Int32} (low : 0 ≤ h.toInt) (high : h.toInt ≤ 65536)
    (width : m.toInt = 131072) (near : 0 ≤ n.toInt ∧ n.toInt ≤ 262144) :
    (Lane.clamp01 (Lane.sub m (Lane.abs (Lane.sub (h.toUInt32 * 6).toInt32 n)))).toInt =
      Max.max 0 (Min.min (131072 - (6 * h.toInt - n.toInt).natAbs : Int) 65536) := by
  have far := distanceInt low high near
  rw [Lane.clampInt, Lane.subInt (by omega) (by omega), far, width]

theorem rampInt (low : 0 ≤ h.toInt) (high : h.toInt ≤ 65536) :
    (hueToRgbFixed h).x.toInt =
      Max.max 0 (Min.min ((6 * h.toInt - 196608).natAbs - 65536 : Int) 65536) ∧
    (hueToRgbFixed h).y.toInt =
      Max.max 0 (Min.min (131072 - (6 * h.toInt - 131072).natAbs : Int) 65536) ∧
    (hueToRgbFixed h).z.toInt =
      Max.max 0 (Min.min (131072 - (6 * h.toInt - 262144).natAbs : Int) 65536) := by
  have red := troughInt (m := Lane.one) (n := 3 * Lane.one) low high rfl (by decide)
  have green := tentInt (m := 2 * Lane.one) (n := 2 * Lane.one) low high rfl (by decide)
  have blue := tentInt (m := 2 * Lane.one) (n := 4 * Lane.one) low high rfl (by decide)
  rw [show (3 * Lane.one).toInt = 196608 from rfl] at red
  rw [show (2 * Lane.one).toInt = 131072 from rfl] at green
  rw [show (4 * Lane.one).toInt = 262144 from rfl] at blue
  dsimp only [hueToRgbFixed]
  exact ⟨red, green, blue⟩

theorem rampFull (low : 0 ≤ h.toInt) (high : h.toInt ≤ 65536) :
    Lane.one ∈ (hueToRgbFixed h).toList := by
  obtain ⟨red, green, blue⟩ := rampInt low high
  -- In sixths: red up to one and from five on, green from one to three, blue from three to five.
  have full : (hueToRgbFixed h).x.toInt = 65536 ∨ (hueToRgbFixed h).y.toInt = 65536 ∨
      (hueToRgbFixed h).z.toInt = 65536 := by omega
  have same {lane : Int32} (number : lane.toInt = 65536) : Lane.one = lane :=
    Int32.toInt_inj.mp number.symm
  rcases full with here | here | here
  · exact List.mem_cons.mpr (.inl (same here))
  · exact List.mem_cons_of_mem _ (List.mem_cons.mpr (.inl (same here)))
  · exact List.mem_cons_of_mem _ (List.mem_cons_of_mem _ (List.mem_singleton.mpr (same here)))

theorem tintInt (least : 0 ≤ lane.toInt) (most : lane.toInt ≤ 65536) (pale : 0 ≤ s.toInt)
    (rich : s.toInt ≤ 65536) :
    (Lane.add (Lane.mul (Lane.sub lane Lane.one) s) Lane.one).toInt =
      (lane.toInt - 65536) * s.toInt / 65536 + 65536 ∧
    -4294967296 ≤ (lane.toInt - 65536) * s.toInt ∧ (lane.toInt - 65536) * s.toInt ≤ 0 := by
  have unit : Lane.one.toInt = 65536 := rfl
  have fade : (Lane.sub lane Lane.one).toInt = lane.toInt - 65536 := by
    rw [Lane.subInt (by omega) (by omega), unit]
  have low : -4294967296 ≤ (lane.toInt - 65536) * s.toInt := by nlinarith
  have high : (lane.toInt - 65536) * s.toInt ≤ 0 := by nlinarith
  have product : (Lane.mul (Lane.sub lane Lane.one) s).toInt =
      (lane.toInt - 65536) * s.toInt / 65536 := by
    rw [Lane.mulInt (by rw [fade]; omega) (by rw [fade]; omega), fade]
  exact ⟨by rw [Lane.addInt (by omega) (by omega), product, unit], low, high⟩

theorem hsvLaneRange (least : 0 ≤ lane.toInt) (most : lane.toInt ≤ 65536) (pale : 0 ≤ s.toInt)
    (rich : s.toInt ≤ 65536) (value : 0 ≤ v.toInt) :
    0 ≤ (hsvLaneFixed lane s v).toInt ∧ (hsvLaneFixed lane s v).toInt ≤ v.toInt := by
  obtain ⟨tint, low, high⟩ := tintInt least most pale rich
  have small := v.toInt_lt
  generalize share : Lane.add (Lane.mul (Lane.sub lane Lane.one) s) Lane.one = k at tint
  have none : 0 ≤ k.toInt * v.toInt := Int.mul_nonneg (by omega) value
  have all : k.toInt * v.toInt ≤ 65536 * v.toInt := Int.mul_le_mul_of_nonneg_right (by omega) value
  rw [hsvLaneFixed, share, Lane.mulInt (by omega) (by omega)]
  omega

theorem hsvLaneFull (pale : 0 ≤ s.toInt) (rich : s.toInt ≤ 65536) :
    hsvLaneFixed Lane.one s v = v := by
  have unit : Lane.one.toInt = 65536 := rfl
  obtain ⟨tint, -, -⟩ := @tintInt Lane.one s (by omega) (by omega) pale rich
  have low := v.le_toInt
  have high := v.toInt_lt
  generalize share : Lane.add (Lane.mul (Lane.sub Lane.one Lane.one) s) Lane.one = k at tint
  have whole : k.toInt * v.toInt = v.toInt * 65536 := by
    rw [tint, unit, Int.sub_self, Int.zero_mul, Int.zero_ediv, Int.zero_add, Int.mul_comm]
  apply Int32.toInt_inj.mp
  rw [hsvLaneFixed, share, Lane.mulInt (by omega) (by omega)]
  omega

end Ramp

section Sorting

variable {r g b d : Int32} {q : Sorted}

theorem sortedCases (r g b : Int32) :
    (g.toInt < b.toInt ∧ r.toInt < b.toInt ∧ sortFixed r g b = ⟨b, g, twoThirds, r⟩) ∨
    (g.toInt < b.toInt ∧ b.toInt ≤ r.toInt ∧ sortFixed r g b = ⟨r, g, -Lane.one, b⟩) ∨
    (b.toInt ≤ g.toInt ∧ r.toInt < g.toInt ∧ sortFixed r g b = ⟨g, b, negThird, r⟩) ∨
    (b.toInt ≤ g.toInt ∧ g.toInt ≤ r.toInt ∧ sortFixed r g b = ⟨r, b, 0, g⟩) := by
  by_cases blue : g < b
  · by_cases first : r < b
    · exact .inl ⟨Int32.lt_iff_toInt_lt.mp blue, Int32.lt_iff_toInt_lt.mp first,
        by simp [sortFixed, blue, first]⟩
    · exact .inr (.inl ⟨Int32.lt_iff_toInt_lt.mp blue,
        Int.not_lt.mp (mt Int32.lt_iff_toInt_lt.mpr first), by simp [sortFixed, blue, first]⟩)
  · have green := Int.not_lt.mp (mt Int32.lt_iff_toInt_lt.mpr blue)
    by_cases first : r < g
    · exact .inr (.inr (.inl ⟨green, Int32.lt_iff_toInt_lt.mp first,
        by simp [sortFixed, blue, first]⟩))
    · exact .inr (.inr (.inr ⟨green, Int.not_lt.mp (mt Int32.lt_iff_toInt_lt.mpr first),
        by simp [sortFixed, blue, first]⟩))

theorem sortedTop (r g b : Int32) :
    (sortFixed r g b).top.toInt = Max.max r.toInt (Max.max g.toInt b.toInt) := by
  rcases sortedCases r g b with ⟨blue, first, same⟩ | ⟨blue, first, same⟩ | ⟨green, first, same⟩ |
    ⟨green, first, same⟩ <;> rw [same] <;> dsimp only <;> omega

theorem topInt (r g b : Int32) :
    (rgbToHsvFixed r g b).z.toInt = Max.max r.toInt (Max.max g.toInt b.toInt) := sortedTop r g b

/-- What sorting lanes of the unit interval leaves: only the offset of a whole turn back is so low
that the hue needs the second lane to be above the lowest. -/
structure Sorted.InGamut (q : Sorted) : Prop where
  low : 0 ≤ q.low.toInt ∧ q.low.toInt ≤ q.top.toInt
  other : 0 ≤ q.other.toInt ∧ q.other.toInt ≤ q.top.toInt
  top : q.top.toInt ≤ 65536
  offset : -65536 ≤ q.offset.toInt ∧ q.offset.toInt ≤ 43690
  turn : q.offset.toInt < -21845 → q.low.toInt ≤ q.other.toInt

theorem sortedInGamut (range : ∀ c ∈ [r, g, b], 0 ≤ c.toInt ∧ c.toInt ≤ 65536) :
    (sortFixed r g b).InGamut := by
  have red := range r (by simp)
  have green := range g (by simp)
  have blue := range b (by simp)
  have low {n : Int32} (small : -21845 ≤ n.toInt) {p : Prop} : n.toInt < -21845 → p :=
    fun less => absurd less (Int.not_lt.mpr small)
  rcases sortedCases r g b with ⟨above, first, same⟩ | ⟨above, first, same⟩ |
    ⟨above, first, same⟩ | ⟨above, first, same⟩ <;> rw [same]
  · exact ⟨⟨green.1, above.le⟩, ⟨red.1, first.le⟩, blue.2,
      (by decide : -65536 ≤ twoThirds.toInt ∧ twoThirds.toInt ≤ 43690),
      low (n := twoThirds) (by decide)⟩
  · exact ⟨⟨green.1, above.le.trans first⟩, ⟨blue.1, first⟩, red.2,
      (by decide : -65536 ≤ (-Lane.one).toInt ∧ (-Lane.one).toInt ≤ 43690), fun _ => above.le⟩
  · exact ⟨⟨blue.1, above⟩, ⟨red.1, first.le⟩, green.2,
      (by decide : -65536 ≤ negThird.toInt ∧ negThird.toInt ≤ 43690),
      low (n := negThird) (by decide)⟩
  · exact ⟨⟨blue.1, above.trans first⟩, ⟨green.1, first⟩, red.2,
      (by decide : -65536 ≤ (0 : Int32).toInt ∧ (0 : Int32).toInt ≤ 43690),
      low (n := 0) (by decide)⟩

theorem chromaInt (gamut : q.InGamut) :
    q.chroma.toInt = q.top.toInt - Min.min q.other.toInt q.low.toInt := by
  obtain ⟨low, other, top, -, -⟩ := gamut
  have least := Lane.minInt q.other q.low
  rw [Sorted.chroma, Lane.subInt (by omega) (by omega), least]

end Sorting

section Divisors

variable {d top : Int32}

theorem hueDivisorNonzero (d : Int32) : hueDivisor d ≠ 0 := fun zero => by
  have six : (6 * Lane.one).toInt * d.toInt / 65536 = 6 * d.toInt := by
    have unit : (6 * Lane.one).toInt = 393216 := rfl
    rw [unit]
    omega
  have value : (hueDivisor d).toInt = (6 * d.toInt + 1).bmod (2 ^ 32) := by
    have one : hueGuardFixed.toInt = 1 := rfl
    rw [hueDivisor, Lane.addFixed, Fixed.add, Int32.toInt_add, Lane.mulWraps, six, one,
      Int.bmod_add_bmod]
  rw [zero, Int32.toInt_zero] at value
  have even := Int.dvd_of_bmod_eq_zero value.symm
  omega

theorem saturationDivisorZero (top : Int32) : saturationDivisor top = 0 ↔ top.toInt = -1 := by
  have one : hueGuardFixed.toInt = 1 := rfl
  have low := top.le_toInt
  have high := top.toInt_lt
  have value : (saturationDivisor top).toInt = (top.toInt + 1).bmod (2 ^ 32) := by
    rw [saturationDivisor, Lane.addFixed, Fixed.add, Int32.toInt_add, one]
  rw [← Int32.toInt_inj, value, Int32.toInt_zero]
  constructor
  · intro zero
    have whole := Int.dvd_of_bmod_eq_zero zero
    omega
  · intro minus
    rw [minus]
    rfl

theorem hueDivisorInt (low : 0 ≤ d.toInt) (high : d.toInt ≤ 65536) :
    (hueDivisor d).toInt = 6 * d.toInt + 1 := by
  have six : (6 * Lane.one).toInt * d.toInt / 65536 = 6 * d.toInt := by
    have unit : (6 * Lane.one).toInt = 393216 := rfl
    rw [unit]
    omega
  have one : hueGuardFixed.toInt = 1 := rfl
  have product : (Lane.mul (6 * Lane.one) d).toInt = 6 * d.toInt := by
    rw [Lane.mulInt (by omega) (by omega), six]
  rw [hueDivisor, Lane.addInt (by omega) (by omega), product, one]

end Divisors

section Gamut

variable {r g b : Int32} {q : Sorted}

def Sorted.sector (q : Sorted) : Int32 :=
  Lane.div (Lane.sub q.other q.low) (hueDivisor q.chroma)

def Sorted.saturation (q : Sorted) : Int32 := Lane.div q.chroma (saturationDivisor q.top)

theorem hsvSorted (r g b : Int32) :
    rgbToHsvFixed r g b =
      ⟨Lane.abs (Lane.add (sortFixed r g b).offset (sortFixed r g b).sector),
        (sortFixed r g b).saturation, (sortFixed r g b).top⟩ := by
  rw [rgbToHsvFixed, Sorted.sector, Sorted.saturation]

theorem sectorBounds (gamut : q.InGamut) :
    q.sector.toInt.natAbs * (6 * q.chroma.toInt + 1) ≤
      (q.other.toInt - q.low.toInt).natAbs * 65536 ∧
    (q.low.toInt ≤ q.other.toInt → 0 ≤ q.sector.toInt) := by
  have chroma := chromaInt gamut
  obtain ⟨low, other, top, -, -⟩ := gamut
  have divisor := hueDivisorInt (d := q.chroma) (by omega) (by omega)
  have difference : (Lane.sub q.other q.low).toInt = q.other.toInt - q.low.toInt :=
    Lane.subInt (by omega) (by omega)
  obtain ⟨most, sign⟩ := Lane.divBounds (a := Lane.sub q.other q.low) (b := hueDivisor q.chroma)
    (by omega) (by omega)
  rw [divisor, difference] at most
  rw [difference] at sign
  exact ⟨most, fun above => sign (Int.sub_nonneg.mpr above)⟩

theorem sectorMost (gamut : q.InGamut) : q.sector.toInt.natAbs ≤ 10922 := by
  obtain ⟨most, -⟩ := sectorBounds gamut
  have chroma := chromaInt gamut
  obtain ⟨low, other, -, -, -⟩ := gamut
  by_contra more
  -- 10923 is the first number above a sixth of the turn.
  have least : 10923 * (6 * q.chroma.toInt + 1) ≤
      q.sector.toInt.natAbs * (6 * q.chroma.toInt + 1) :=
    Int.mul_le_mul_of_nonneg_right (by omega) (by omega)
  omega

theorem hueRange (gamut : q.InGamut) :
    0 ≤ (Lane.abs (Lane.add q.offset q.sector)).toInt ∧
      (Lane.abs (Lane.add q.offset q.sector)).toInt ≤ 65536 := by
  have most := sectorMost gamut
  obtain ⟨-, sign⟩ := sectorBounds gamut
  obtain ⟨-, -, -, offset, turn⟩ := gamut
  have sum : (Lane.add q.offset q.sector).toInt = q.offset.toInt + q.sector.toInt :=
    Lane.addInt (by omega) (by omega)
  rw [Lane.absInt (by omega), sum]
  omega

theorem saturationBounds (gamut : q.InGamut) : 0 ≤ q.saturation.toInt ∧
    q.saturation.toInt * (q.top.toInt + 1) ≤ q.chroma.toInt * 65536 := by
  have chroma := chromaInt gamut
  obtain ⟨low, other, top, -, -⟩ := gamut
  have one : hueGuardFixed.toInt = 1 := rfl
  have divisor : (saturationDivisor q.top).toInt = q.top.toInt + 1 :=
    Lane.addInt (by omega) (by omega)
  obtain ⟨most, sign⟩ := Lane.divBounds (a := q.chroma) (b := saturationDivisor q.top)
    (by omega) (by omega)
  have nonneg : 0 ≤ q.saturation.toInt := sign (by omega)
  rw [divisor, ← Sorted.saturation, Int.natAbs_of_nonneg nonneg,
    Int.natAbs_of_nonneg (by omega)] at most
  exact ⟨nonneg, most⟩

theorem saturationMost (gamut : q.InGamut) : q.saturation.toInt ≤ 65536 := by
  obtain ⟨-, most⟩ := saturationBounds gamut
  have chroma := chromaInt gamut
  obtain ⟨low, other, -, -, -⟩ := gamut
  by_contra more
  have least : 65537 * (q.top.toInt + 1) ≤ q.saturation.toInt * (q.top.toInt + 1) :=
    Int.mul_le_mul_of_nonneg_right (by omega) (by omega)
  omega

theorem greyFlat (gamut : q.InGamut) (grey : q.chroma.toInt = 0) :
    q.sector = 0 ∧ q.saturation = 0 := by
  obtain ⟨around, -⟩ := sectorBounds gamut
  obtain ⟨least, most⟩ := saturationBounds gamut
  have chroma := chromaInt gamut
  obtain ⟨low, other, -, -, -⟩ := gamut
  rw [grey] at around most
  refine ⟨Int32.toInt_inj.mp (Int.natAbs_eq_zero.mp (by omega)), Int32.toInt_inj.mp ?_⟩
  rw [Int32.toInt_zero]
  nlinarith

theorem greyHsv (range : 0 ≤ r.toInt ∧ r.toInt ≤ 65536) : rgbToHsvFixed r r r = ⟨0, 0, r⟩ := by
  have gamut : (sortFixed r r r).InGamut := sortedInGamut (by simpa using range)
  have sorted : sortFixed r r r = ⟨r, r, 0, r⟩ := by simp [sortFixed]
  have grey : (sortFixed r r r).chroma.toInt = 0 := by
    have least : Min.min r.toInt r.toInt = r.toInt := Int.min_self _
    rw [chromaInt gamut, sorted, least, Int.sub_self]
  obtain ⟨sector, saturation⟩ := greyFlat gamut grey
  rw [hsvSorted, sector, saturation, sorted]
  rfl

end Gamut

open Builtin (answer? intsAnswer)

section Conversions

variable {h s v : Int32}

theorem hsvAnswer (h s v : Int32) :
    answer? "qs_hsv2rgb_q32" 3 [h, s, v] = some (hsvToRgbFixed h s v).toList :=
  congrArg some (intsAnswer (f := fun a => (hsvToRgbFixed (a 0) (a 1) (a 2)).toList) [h, s, v] rfl)

theorem hsvAlphaAnswer (h s v alpha : Int32) :
    answer? "qs_hsv2rgb_vec4_q32" 4 [h, s, v, alpha] =
      some ((hsvToRgbFixed h s v).toList ++ [alpha]) :=
  congrArg some (intsAnswer
    (f := fun a => (hsvToRgbFixed (a 0) (a 1) (a 2)).toList ++ [a 3]) [h, s, v, alpha] rfl)

theorem rgbAnswer (r g b : Int32) :
    answer? "qs_rgb2hsv_q32" 3 [r, g, b] = some (rgbToHsvFixed r g b).toList :=
  congrArg some (intsAnswer (f := fun a => (rgbToHsvFixed (a 0) (a 1) (a 2)).toList) [r, g, b] rfl)

theorem rgbAlphaAnswer (r g b alpha : Int32) :
    answer? "qs_rgb2hsv_vec4_q32" 4 [r, g, b, alpha] =
      some ((rgbToHsvFixed r g b).toList ++ [alpha]) :=
  congrArg some (intsAnswer
    (f := fun a => (rgbToHsvFixed (a 0) (a 1) (a 2)).toList ++ [a 3]) [r, g, b, alpha] rfl)

theorem hsvLanes (h s v : Int32) :
    (hsvToRgbFixed h s v).toList =
      (hueToRgbFixed h).toList.map fun lane => hsvLaneFixed lane s v := rfl

variable (saturation : 0 ≤ s.toInt ∧ s.toInt ≤ 65536)

include saturation

theorem hsvRange (h : Int32) (value : 0 ≤ v.toInt) :
    ∀ lane ∈ (hsvToRgbFixed h s v).toList, 0 ≤ lane.toInt ∧ lane.toInt ≤ v.toInt := by
  rw [hsvLanes, List.forall_mem_map]
  intro lane member
  obtain ⟨least, most⟩ := rampRange h lane member
  exact hsvLaneRange least most saturation.1 saturation.2 value

theorem hsvFull (hue : 0 ≤ h.toInt ∧ h.toInt ≤ 65536) : v ∈ (hsvToRgbFixed h s v).toList := by
  rw [hsvLanes]
  exact List.mem_map.mpr ⟨Lane.one, rampFull hue.1 hue.2, hsvLaneFull saturation.1 saturation.2⟩

theorem valueBack (hue : 0 ≤ h.toInt ∧ h.toInt ≤ 65536) (value : 0 ≤ v.toInt) :
    (rgbToHsvFixed (hsvToRgbFixed h s v).x (hsvToRgbFixed h s v).y (hsvToRgbFixed h s v).z).z =
      v := by
  have range := hsvRange saturation h value
  have full := hsvFull saturation hue (v := v)
  generalize hsvToRgbFixed h s v = rgb at range full
  have red := range rgb.x (by simp [Triple.toList])
  have green := range rgb.y (by simp [Triple.toList])
  have blue := range rgb.z (by simp [Triple.toList])
  have here : v.toInt = rgb.x.toInt ∨ v.toInt = rgb.y.toInt ∨ v.toInt = rgb.z.toInt := by
    simp only [Triple.toList, List.mem_cons, List.not_mem_nil, or_false] at full
    exact full.imp (congrArg _) (Or.imp (congrArg _) (congrArg _))
  apply Int32.toInt_inj.mp
  rw [topInt]
  omega

/-- The lanes of a colour lie between zero and its value, one of them is the value, and the way
back finds it, with or without an alpha that passes through. -/
theorem hsvKeepsValue (hue : 0 ≤ h.toInt ∧ h.toInt ≤ 65536) (value : 0 ≤ v.toInt)
    (alpha : Int32) :
    ∃ x y z turn tint : Int32,
      (∀ lane ∈ [x, y, z], 0 ≤ lane.toInt ∧ lane.toInt ≤ v.toInt) ∧ v ∈ [x, y, z] ∧
      answer? "qs_hsv2rgb_q32" 3 [h, s, v] = some [x, y, z] ∧
      answer? "qs_rgb2hsv_q32" 3 [x, y, z] = some [turn, tint, v] ∧
      answer? "qs_hsv2rgb_vec4_q32" 4 [h, s, v, alpha] = some [x, y, z, alpha] ∧
      answer? "qs_rgb2hsv_vec4_q32" 4 [x, y, z, alpha] = some [turn, tint, v, alpha] := by
  have back := valueBack saturation hue value
  have range := hsvRange saturation h value
  have full := hsvFull saturation hue (v := v)
  have there := hsvAnswer h s v
  have thereAlpha := hsvAlphaAnswer h s v alpha
  generalize hsvToRgbFixed h s v = rgb at back range full there thereAlpha
  have here := rgbAnswer rgb.x rgb.y rgb.z
  have hereAlpha := rgbAlphaAnswer rgb.x rgb.y rgb.z alpha
  generalize rgbToHsvFixed rgb.x rgb.y rgb.z = hsv at back here hereAlpha
  rw [Triple.toList, back] at here hereAlpha
  exact ⟨rgb.x, rgb.y, rgb.z, hsv.x, hsv.y, range, full, there, here, thereAlpha, hereAlpha⟩

end Conversions

theorem greatestValueKept :
    (0 ≤ (65536 : Int32).toInt ∧ (65536 : Int32).toInt ≤ 65536) ∧
    0 ≤ (2147483647 : Int32).toInt ∧
    ∃ x y z turn tint : Int32, (2147483647 : Int32) ∈ [x, y, z] ∧
      answer? "qs_hsv2rgb_vec4_q32" 4 [65536, 65536, 2147483647, -7] = some [x, y, z, -7] ∧
      answer? "qs_rgb2hsv_vec4_q32" 4 [x, y, z, -7] = some [turn, tint, 2147483647, -7] := by
  have unit : 0 ≤ (65536 : Int32).toInt ∧ (65536 : Int32).toInt ≤ 65536 := by decide
  have value : 0 ≤ (2147483647 : Int32).toInt := by decide
  obtain ⟨x, y, z, turn, tint, -, full, -, -, there, back⟩ := hsvKeepsValue unit unit value (-7)
  exact ⟨unit, value, x, y, z, turn, tint, full, there, back⟩

/-- On the way from red, green and blue the divisor of the hue is never zero and that of the
saturation only for a largest lane of minus one. The value is the largest lane; for lanes between
zero and one so are hue and saturation, and a grey has neither. -/
theorem rgbStaysInGamut (r g b : Int32) :
    ∃ q : Sorted, ∃ hue saturation value : Int32,
      q = sortFixed r g b ∧ answer? "qs_rgb2hsv_q32" 3 [r, g, b] = some [hue, saturation, value] ∧
      hue = Lane.abs (Lane.add q.offset
        (Lane.div (Lane.sub q.other q.low) (hueDivisor q.chroma))) ∧
      saturation = Lane.div q.chroma (saturationDivisor q.top) ∧
      hueDivisor q.chroma ≠ 0 ∧
      (saturationDivisor q.top = 0 ↔ Max.max r.toInt (Max.max g.toInt b.toInt) = -1) ∧
      value.toInt = Max.max r.toInt (Max.max g.toInt b.toInt) ∧
      ((∀ c ∈ [r, g, b], 0 ≤ c.toInt ∧ c.toInt ≤ 65536) →
        (0 ≤ hue.toInt ∧ hue.toInt ≤ 65536) ∧ (0 ≤ saturation.toInt ∧ saturation.toInt ≤ 65536) ∧
        (r = g → g = b → hue = 0 ∧ saturation = 0)) := by
  have answer := rgbAnswer r g b
  have top := sortedTop r g b
  have gamut : (∀ c ∈ [r, g, b], 0 ≤ c.toInt ∧ c.toInt ≤ 65536) → (sortFixed r g b).InGamut :=
    sortedInGamut
  have grey : (∀ c ∈ [r, g, b], 0 ≤ c.toInt ∧ c.toInt ≤ 65536) → r = g → g = b →
      Lane.abs (Lane.add (sortFixed r g b).offset (sortFixed r g b).sector) = 0 ∧
        (sortFixed r g b).saturation = 0 := by
    rintro range rfl rfl
    have flat := greyHsv (range r List.mem_cons_self)
    rw [hsvSorted, Triple.mk.injEq] at flat
    exact ⟨flat.1, flat.2.1⟩
  simp only [hsvSorted, Triple.toList] at answer
  generalize sorted : sortFixed r g b = q at answer top gamut grey
  refine ⟨q, Lane.abs (Lane.add q.offset q.sector), q.saturation, q.top, rfl, answer,
    by rw [Sorted.sector], by rw [Sorted.saturation], hueDivisorNonzero q.chroma,
    by rw [saturationDivisorZero, top], top, fun range => ?_⟩
  exact ⟨hueRange (gamut range),
    ⟨(saturationBounds (gamut range)).1, saturationMost (gamut range)⟩, grey range⟩

theorem violetInGamut :
    (∀ c ∈ [(32768 : Int32), 0, 65536], 0 ≤ c.toInt ∧ c.toInt ≤ 65536) ∧
    (∃ hue saturation value : Int32,
      answer? "qs_rgb2hsv_q32" 3 [32768, 0, 65536] = some [hue, saturation, value] ∧
        value.toInt = 65536 ∧ 0 ≤ hue.toInt ∧ hue.toInt ≤ 65536) ∧
    (∃ hue saturation value : Int32,
      answer? "qs_rgb2hsv_q32" 3 [65536, 65536, 65536] = some [hue, saturation, value] ∧
        hue = 0 ∧ saturation = 0) := by
  have none : 0 ≤ (0 : Int32).toInt ∧ (0 : Int32).toInt ≤ 65536 := by decide
  have half : 0 ≤ (32768 : Int32).toInt ∧ (32768 : Int32).toInt ≤ 65536 := by decide
  have full : 0 ≤ (65536 : Int32).toInt ∧ (65536 : Int32).toInt ≤ 65536 := by decide
  have violet : ∀ c ∈ [(32768 : Int32), 0, 65536], 0 ≤ c.toInt ∧ c.toInt ≤ 65536 :=
    List.forall_mem_cons.mpr
      ⟨half, List.forall_mem_cons.mpr ⟨none, List.forall_mem_singleton.mpr full⟩⟩
  have white : ∀ c ∈ [(65536 : Int32), 65536, 65536], 0 ≤ c.toInt ∧ c.toInt ≤ 65536 :=
    List.forall_mem_cons.mpr
      ⟨full, List.forall_mem_cons.mpr ⟨full, List.forall_mem_singleton.mpr full⟩⟩
  refine ⟨violet, ?_, ?_⟩
  · obtain ⟨-, hue, saturation, value, -, there, -, -, -, -, top, range⟩ :=
      rgbStaysInGamut 32768 0 65536
    exact ⟨hue, saturation, value, there, top.trans (by decide), (range violet).1⟩
  · obtain ⟨-, hue, saturation, value, -, there, -, -, -, -, -, range⟩ :=
      rgbStaysInGamut 65536 65536 65536
    exact ⟨hue, saturation, value, there, (range white).2.2 rfl rfl⟩

end FixedIL.Native
