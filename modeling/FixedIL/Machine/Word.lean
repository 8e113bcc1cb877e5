import FixedIL.Bytes
import FixedIL.Fixed
import FixedIL.Number.Binary64
import FixedIL.Opcode

/-!
Machine words. A register holds 64 raw bits; integers are sign-extended to the word,
truth is 0 or 1, and a float is held as a double.
-/
namespace FixedIL

abbrev Word := UInt64

namespace Word

def ofInt64 (n : Int64) : Word := n.toUInt64

def ofBool (b : Bool) : Word := if b then 1 else 0

def isTrue (w : Word) : Bool := w &&& 1 != 0

def ofFloat (x : Float) : Word := x.toBits

def asFloat (w : Word) : Float := Float.ofBits w

/-- The word as a value of the type is held: sign-extended from its width, truth as one bit. -/
def normalize : Ty → Word → Word
  | .i1, w => w &&& 1
  | .i8, w => w.toUInt8.toInt8.toInt64.toUInt64
  | .i16, w => w.toUInt16.toInt16.toInt64.toUInt64
  | .i32, w => w.toUInt32.toInt32.toInt64.toUInt64
  | _, w => w

def unsigned (t : Ty) (w : Word) : Word :=
  match t with
  | .i1 => w &&& 1
  | .i8 => w &&& 0xff
  | .i16 => w &&& 0xffff
  | .i32 => w &&& 0xffffffff
  | _ => w

end Word

namespace IntOp

def amount (t : Ty) (w : Word) : Word := w &&& (UInt64.ofNat t.width - 1)

/-- Before narrowing; no value for a zero divisor. Signed division by -1 is negation, so
that the least number stays what it is. -/
def raw? (op : IntOp) (t : Ty) (a b : Word) : Option Word :=
  match op with
  | .add => some (a + b)
  | .sub => some (a - b)
  | .mul => some (a * b)
  | .and => some (a &&& b)
  | .or => some (a ||| b)
  | .xor => some (a ^^^ b)
  | .sdiv =>
    if b = 0 then none
    else if b.toInt64 = -1 then some (0 - a)
    else some (a.toInt64 / b.toInt64).toUInt64
  | .srem =>
    if b = 0 then none
    else if b.toInt64 = -1 then some 0
    else some (a.toInt64 % b.toInt64).toUInt64
  | .udiv =>
    if Word.unsigned t b = 0 then none else some (Word.unsigned t a / Word.unsigned t b)
  | .urem =>
    if Word.unsigned t b = 0 then none else some (Word.unsigned t a % Word.unsigned t b)
  | .shl => some (a <<< amount t b)
  | .lshr => some (Word.unsigned t a >>> amount t b)
  | .ashr => some (a.toInt64 >>> (amount t b).toInt64).toUInt64

def eval? (op : IntOp) (t : Ty) (a b : Word) : Option Word :=
  (op.raw? t a b).map (Word.normalize t)

end IntOp

namespace IntCompare

def eval (c : IntCompare) (t : Ty) (a b : Word) : Bool :=
  match c with
  | .eq => a = b
  | .ne => a ≠ b
  | .slt => a.toInt64 < b.toInt64
  | .sle => a.toInt64 ≤ b.toInt64
  | .sgt => b.toInt64 < a.toInt64
  | .sge => b.toInt64 ≤ a.toInt64
  | .ult => Word.unsigned t a < Word.unsigned t b
  | .ule => Word.unsigned t a ≤ Word.unsigned t b
  | .ugt => Word.unsigned t b < Word.unsigned t a
  | .uge => Word.unsigned t b ≤ Word.unsigned t a

end IntCompare
end FixedIL
