import FixedIL.Native.Lane

/-!
Sine and cosine, and the rotation made of them. The fixed-point sine folds the angle
into a quarter turn and evaluates a series of odd powers.
-/
namespace FixedIL.Native

def sinFloat (x : Float32) : Float32 := x.toFloat.sin.toFloat32

def cosFloat (x : Float32) : Float32 := x.toFloat.cos.toFloat32

def rotateFloat (x y angle : Float32) : List Float32 :=
  let c := cosFloat angle
  let s := sinFloat angle
  [x * c - y * s, x * s + y * c]

def pi : Int32 := 205887
def twoPi : Int64 := 411775
def halfPi : Int32 := 102944

def wrapAngle (x : Int32) : Int32 :=
  let r := x.toInt64 % twoPi
  let r := if pi.toInt64 < r then r - twoPi else if r < -pi.toInt64 then r + twoPi else r
  r.toInt32

def foldAngle (x : Int32) : Int32 :=
  let a := wrapAngle x
  if halfPi < a then pi - a else if a < -halfPi then -pi - a else a

def level (a2 coefficient inner : Int32) : Int32 :=
  Lane.sub Lane.one (Lane.mul (Lane.mul a2 coefficient) inner)

def series (a : Int32) : Int32 :=
  let a2 := Lane.mul a a
  let t := Lane.sub Lane.one (Lane.mul a2 910)
  let t := level a2 1560 t
  let t := level a2 3277 t
  let t := level a2 10923 t
  Lane.mul a t

def sinFixed (x : Int32) : Int32 := series (foldAngle x)

/-- A quarter turn ahead of the sine; the shift wraps. -/
def cosFixed (x : Int32) : Int32 := sinFixed (Lane.add x halfPi)

def rotateFixed (x y angle : Int32) : List Int32 :=
  let c := cosFixed angle
  let s := sinFixed angle
  [Lane.sub (Lane.mul x c) (Lane.mul y s), Lane.add (Lane.mul x s) (Lane.mul y c)]

end FixedIL.Native
