import FixedIL.Builtin.Registry
import FixedIL.Machine.Word
import FixedIL.Program

/-!
How a machine holds floats. The rest of the machine is the same for every domain: it
asks the domain for literals, arithmetic, comparisons, conversions, the form in memory
and the native routine behind a symbol. `ieee` is the domain of doubles.
-/
namespace FixedIL

structure FloatDomain where
  literal : Float → Word
  constant : Ty → Value → Word
  arith : FloatOp → Ty → Word → Word → Word
  remainder : Ty → Word → Word → Word
  compare : FloatCompare → Word → Word → Bool
  ofInt : Ty → Int64 → Word
  toInt : Ty → Word → Word
  cast : Ty → Word → Word
  toFixed : Word → Word
  ofFixed : Ty → Word → Word
  size : Ty → Nat
  read : Ty → Word → Word
  write : Ty → Word → Word
  routine? : Builtin.Registry → String → Option NativeRoutine

namespace FloatDomain

def roundTo (t : Ty) (x : Float) : Float := if t = .f32 then x.toFloat32.toFloat else x

def minNum (a b : Float) : Float :=
  if a.isNaN then b else if b.isNaN then a else if b < a then b else a

def maxNum (a b : Float) : Float :=
  if a.isNaN then b else if b.isNaN then a else if a < b then b else a

def remainderOf (a b : Float) : Float :=
  Float.ofBits ((Binary64.ofFloat a).remainder (Binary64.ofFloat b)).toBits

def arithDouble (op : FloatOp) (a b : Float) : Float :=
  match op with
  | .add => a + b
  | .sub => a - b
  | .mul => a * b
  | .div => a / b
  | .neg => -a
  | .abs => a.abs
  | .min => minNum a b
  | .max => maxNum a b
  | .sqrt => a.sqrt

def arithSingle (op : FloatOp) (a b : Float) : Float :=
  match op with
  | .add => (a.toFloat32 + b.toFloat32).toFloat
  | .sub => (a.toFloat32 - b.toFloat32).toFloat
  | .mul => (a.toFloat32 * b.toFloat32).toFloat
  | .div => (a.toFloat32 / b.toFloat32).toFloat
  | .neg => -a
  | .abs => a.abs
  | .min => minNum (roundTo .f32 a) (roundTo .f32 b)
  | .max => maxNum (roundTo .f32 a) (roundTo .f32 b)
  | .sqrt => a.toFloat32.sqrt.toFloat

def arithIeee (op : FloatOp) (t : Ty) (a b : Float) : Float :=
  if t = .f32 then arithSingle op a b else arithDouble op a b

def compareIeee (c : FloatCompare) (a b : Float) : Bool :=
  match c with
  | .eq => a == b
  | .ne => a != b
  | .lt => a < b
  | .le => a ≤ b
  | .gt => b < a
  | .ge => b ≤ a

def constantValue : Value → Float
  | .float x => x
  | v => (v.intLiteral?.getD 0).toFloat

def truncateTo (t : Ty) (x : Float) : Int64 :=
  let top : Int := Nat.pow 2 (t.width - 1)
  Int64.ofInt ((Binary64.ofFloat x).truncateWithin (-top) (top - 1))

def ieee : FloatDomain where
  literal := Word.ofFloat
  constant t v := Word.ofFloat (roundTo t (constantValue v))
  arith op t a b := Word.ofFloat (arithIeee op t (Word.asFloat a) (Word.asFloat b))
  remainder t a b :=
    Word.ofFloat (remainderOf (roundTo t (Word.asFloat a)) (roundTo t (Word.asFloat b)))
  compare c a b := compareIeee c (Word.asFloat a) (Word.asFloat b)
  ofInt t n := Word.ofFloat (roundTo t n.toFloat)
  toInt t a := Word.ofInt64 (truncateTo t (Word.asFloat a))
  cast t a := Word.ofFloat (roundTo t (Word.asFloat a))
  toFixed a := Word.ofInt64 (Fixed.ofFloat (Word.asFloat a)).toInt64
  ofFixed t a := Word.ofFloat (roundTo t (Fixed.toFloat32 a.toUInt32.toInt32).toFloat)
  size := Ty.size
  read
    | .f32, raw => Word.ofFloat (Float32.ofBits raw.toUInt32).toFloat
    | _, raw => raw
  write
    | .f32, a => (Word.asFloat a).toFloat32.toBits.toUInt64
    | _, a => a
  routine? registry symbol := (registry.findSymbol? symbol).bind (·.implementation.routine)

def load (d : FloatDomain) (t : Ty) (bytes : List UInt8) : Word :=
  let raw := Bytes.toWord bytes
  match t with
  | .void => 0
  | .f32 | .f64 => d.read t raw
  | _ => Word.normalize t raw

def raw (d : FloatDomain) (t : Ty) (w : Word) : Word := if t.isFloat then d.write t w else w

def sizeOf (d : FloatDomain) (t : Ty) : Nat := if t.isFloat then d.size t else t.size

def store (d : FloatDomain) (t : Ty) (w : Word) : List UInt8 :=
  Bytes.ofWord (d.sizeOf t) (d.raw t w)

/-- The argument cell of a native call; what has no size travels as a whole word. -/
def cell (d : FloatDomain) (t : Ty) (w : Word) : Word :=
  if t = .void then w else Bytes.toWord (d.store t w)

end FloatDomain
end FixedIL
