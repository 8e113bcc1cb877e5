import FixedIL.Number.Binary64
import FixedIL.Ty

/-!
Q16.16 arithmetic: a number is a signed 32-bit word that counts 65536ths. Sums and
products wrap. Division multiplies by a truncated reciprocal, and the square root
takes six Newton steps with the same reciprocal.
-/
namespace FixedIL.Fixed

abbrev Q16 := Int32

def fractionBits : Nat := 16
def one : Q16 := 65536
def greatest : Q16 := 2147483647
def least : Q16 := -2147483648

def ofFloat (x : Float) : Q16 :=
  Int32.ofInt ((Binary64.ofFloat x).roundScaledWithin least.toInt greatest.toInt fractionBits)

def toFloat32 (v : Q16) : Float32 := (v.toFloat / 65536).toFloat32

def ofInt (v : Int32) : Q16 := v <<< 16

def toInt (v : Q16) : Int32 := v >>> 16

def add (a b : Q16) : Q16 := a + b

def sub (a b : Q16) : Q16 := a - b

def neg (a : Q16) : Q16 := sub 0 a

def abs (a : Q16) : Q16 := if a < 0 then neg a else a

def min (a b : Q16) : Q16 := if a < b then a else b

def max (a b : Q16) : Q16 := if b < a then a else b

def mul (a b : Q16) : Q16 := ((a.toInt64 * b.toInt64) >>> 16).toInt32

/-- The absolute value, which the least number has only without a sign. -/
def magnitude (v : Q16) : UInt32 := if v < 0 then 0 - v.toUInt32 else v.toUInt32

def reciprocalNumerator : UInt32 := 0x80000000

def reciprocal (d : UInt32) : UInt32 := reciprocalNumerator / d

def scaleBy (a recip : UInt64) : UInt64 := ((a * recip) <<< 1) >>> 16

def quotient (a b : Q16) : Q16 :=
  (scaleBy (magnitude a).toUInt64 (reciprocal (magnitude b)).toUInt64).toUInt32.toInt32

/-- A zero divisor gives the extreme with the sign of `a`, or zero for zero. -/
def div (a b : Q16) : Q16 :=
  if b = 0 then
    if a = 0 then 0 else if a < 0 then least else greatest
  else if a ^^^ b < 0 then neg (quotient a b) else quotient a b

namespace Sqrt

def steps : Nat := 6

def clamp (guess : Int64) : Int64 :=
  if guess < greatest.toInt64 then guess else greatest.toInt64

def refine (scaled guess : Int64) : Int64 :=
  let recip := reciprocal (clamp guess).toUInt64.toUInt32
  let quotient := (scaleBy scaled.toUInt64 recip.toUInt64).toInt64
  let next := (guess + quotient) >>> 1
  if next = 0 then 1 else next

def scaled (x : Q16) : Int64 := x.toInt64 <<< 16

def initial (x : Q16) : Int64 :=
  let first := scaled x >>> 9
  if first < 1 then 1 else first

def guess (x : Q16) : Nat → Int64
  | 0 => initial x
  | k + 1 => refine (scaled x) (guess x k)

end Sqrt

def sqrt (x : Q16) : Q16 :=
  if x ≤ 0 then 0 else (Sqrt.guess x Sqrt.steps >>> 8).toInt32

inductive Format where
  | fixed16x16
  | fixed32x32
  deriving DecidableEq, Repr

namespace Format

def name : Format → String
  | .fixed16x16 => "fixed16x16"
  | .fixed32x32 => "fixed32x32"

def all : List Format := [.fixed16x16, .fixed32x32]

def ofName? (s : String) : Option Format := all.find? (fun f => f.name = s)

/-- The wide encoding is reserved: no operation takes it yet. -/
def isSupported : Format → Bool
  | .fixed16x16 => true
  | .fixed32x32 => false

def storage : Format → Ty
  | .fixed16x16 => .i32
  | .fixed32x32 => .i64

end Format
end FixedIL.Fixed
