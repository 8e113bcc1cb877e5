import FixedIL.Native.Lane

/-!
Colour conversions between red, green, blue and hue, saturation, value, in single
precision and in Q16.16.
-/
namespace FixedIL.Native

structure Triple (α : Type) where
  x : α
  y : α
  z : α
  deriving DecidableEq, Repr

def Triple.toList {α : Type} (t : Triple α) : List α := [t.x, t.y, t.z]

def Triple.map {α β : Type} (f : α → β) (t : Triple α) : Triple β := ⟨f t.x, f t.y, f t.z⟩

/- Single precision. -/

def saturateFloat (x : Float32) : Float32 := if x < 0 then 0 else if x > 1 then 1 else x

def hueToRgbFloat (hue : Float32) : Triple Float32 :=
  let h6 := hue * 6
  ⟨saturateFloat ((h6 - 3).abs - 1), saturateFloat (2 - (h6 - 2).abs),
    saturateFloat (2 - (h6 - 4).abs)⟩

def hsvToRgbFloat (h s v : Float32) : Triple Float32 :=
  (hueToRgbFloat h).map fun lane => ((lane - 1) * s + 1) * v

def minFloat (a b : Float32) : Float32 :=
  if a.isNaN then b else if b.isNaN then a else if b < a then b else a

def hueGuardFloat : Float32 := 1e-10

def rgbToHsvFloat (r g b : Float32) : Triple Float32 :=
  let (px, py, pz, pw) : Float32 × Float32 × Float32 × Float32 :=
    if g < b then (b, g, -1, 2 / 3) else (g, b, 0, -1 / 3)
  let (qx, qy, qz, qw) := if r < px then (px, py, pw, r) else (r, py, pz, px)
  let d := qx - minFloat qw qy
  ⟨(qz + (qw - qy) / (6 * d + hueGuardFloat)).abs, d / (qx + hueGuardFloat), qx⟩

/- Fixed point. -/

def hueToRgbFixed (hue : Int32) : Triple Int32 :=
  let h6 := (hue.toUInt32 * 6).toInt32
  ⟨Lane.clamp01 (Lane.sub (Lane.abs (Lane.sub h6 (3 * Lane.one))) Lane.one),
    Lane.clamp01 (Lane.sub (2 * Lane.one) (Lane.abs (Lane.sub h6 (2 * Lane.one)))),
    Lane.clamp01 (Lane.sub (2 * Lane.one) (Lane.abs (Lane.sub h6 (4 * Lane.one))))⟩

def hsvLaneFixed (lane s v : Int32) : Int32 :=
  Lane.mul (Lane.add (Lane.mul (Lane.sub lane Lane.one) s) Lane.one) v

def hsvToRgbFixed (h s v : Int32) : Triple Int32 :=
  (hueToRgbFixed h).map fun lane => hsvLaneFixed lane s v

def negThird : Int32 := -21845
def twoThirds : Int32 := 43690
def hueGuardFixed : Int32 := 1

structure Sorted where
  top : Int32
  low : Int32
  offset : Int32
  other : Int32
  deriving DecidableEq, Repr

def sortFixed (r g b : Int32) : Sorted :=
  let (top, low, near, far) : Int32 × Int32 × Int32 × Int32 :=
    if g < b then (b, g, -Lane.one, twoThirds) else (g, b, 0, negThird)
  if r < top then ⟨top, low, far, r⟩ else ⟨r, low, near, top⟩

def Sorted.chroma (q : Sorted) : Int32 := Lane.sub q.top (Lane.min q.other q.low)

def hueDivisor (d : Int32) : Int32 := Lane.add (Lane.mul (6 * Lane.one) d) hueGuardFixed

def saturationDivisor (top : Int32) : Int32 := Lane.add top hueGuardFixed

def rgbToHsvFixed (r g b : Int32) : Triple Int32 :=
  let q := sortFixed r g b
  let d := q.chroma
  ⟨Lane.abs (Lane.add q.offset (Lane.div (Lane.sub q.other q.low) (hueDivisor d))),
    Lane.div d (saturationDivisor q.top), q.top⟩

end FixedIL.Native
