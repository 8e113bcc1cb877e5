import FixedIL.Emission
import FixedIL.Fixed

/-!
Integer code for Q16.16 arithmetic, ending in the definition of a given temporary.
Zero divisors and negative roots are dealt with by selects, so that no block is split;
no emitted division has a zero divisor.
-/
namespace FixedIL.Lowering.Sequence

open Emit

def imm (n : Int64) : Value := .int n

def intOp (op : IntOp) (type : Ty) (a b : Value) : Emit Value := emit (.int op) type [a, b]

def compareTo (c : IntCompare) (a b : Value) : Emit Value := emit (.icmp c) .i1 [a, b]

def fraction : Int64 := Int64.ofNat Fixed.fractionBits

def greatest : Int64 := Fixed.greatest.toInt64

def least : Int64 := Fixed.least.toInt64

def numerator : Int64 := Fixed.reciprocalNumerator.toUInt64.toInt64

def add (a b : Value) (r : TempId) : Emit Value := define (.int .add) .i32 [a, b] r

def sub (a b : Value) (r : TempId) : Emit Value := define (.int .sub) .i32 [a, b] r

def neg (a : Value) (r : TempId) : Emit Value := define (.int .sub) .i32 [imm 0, a] r

def abs (a : Value) (r : TempId) : Emit Value := do
  let isNeg ← compareTo .slt a (imm 0)
  let negated ← intOp .sub .i32 (imm 0) a
  define .select .i32 [isNeg, negated, a] r

def min (a b : Value) (r : TempId) : Emit Value := do
  let less ← compareTo .slt a b
  define .select .i32 [less, a, b] r

def max (a b : Value) (r : TempId) : Emit Value := do
  let greater ← compareTo .sgt a b
  define .select .i32 [greater, a, b] r

def mul (a b : Value) (r : TempId) : Emit Value := do
  let wideA ← emit .sext .i64 [a]
  let wideB ← emit .sext .i64 [b]
  let product ← intOp .mul .i64 wideA wideB
  let shifted ← intOp .ashr .i64 product (imm fraction)
  define .trunc .i32 [shifted] r

def scaleBy (a recip : Value) : Emit Value := do
  let product ← intOp .mul .i64 a recip
  let doubled ← intOp .shl .i64 product (imm 1)
  intOp .lshr .i64 doubled (imm fraction)

def magnitude (a isNeg : Value) : Emit Value := do
  let negated ← intOp .sub .i32 (imm 0) a
  let narrow ← select .i32 isNeg negated a
  emit .zext .i64 [narrow]

def div (a b : Value) (r : TempId) : Emit Value := do
  let bIsZero ← compareTo .eq b (imm 0)
  let aIsZero ← compareTo .eq a (imm 0)
  let aIsNeg ← compareTo .slt a (imm 0)
  let bIsNeg ← compareTo .slt b (imm 0)
  let absA ← magnitude a aIsNeg
  let absB ← magnitude b bIsNeg
  let divisor ← select .i64 bIsZero (imm 1) absB
  let recip ← intOp .udiv .i64 (imm numerator) divisor
  let scaled ← scaleBy absA recip
  let quotient ← emit .trunc .i32 [scaled]
  let signs ← intOp .xor .i32 a b
  let differ ← compareTo .slt signs (imm 0)
  let negated ← intOp .sub .i32 (imm 0) quotient
  let withSign ← select .i32 differ negated quotient
  let extreme ← select .i32 aIsNeg (imm least) (imm greatest)
  let byZero ← select .i32 aIsZero (imm 0) extreme
  define .select .i32 [bIsZero, byZero, withSign] r

def refine (scaled guess : Value) : Emit Value := do
  let inRange ← compareTo .slt guess (imm greatest)
  let clamped ← select .i64 inRange guess (imm greatest)
  let recip ← intOp .udiv .i64 (imm numerator) clamped
  let quotient ← scaleBy scaled recip
  let sum ← intOp .add .i64 guess quotient
  let halved ← intOp .ashr .i64 sum (imm 1)
  let isZero ← compareTo .eq halved (imm 0)
  select .i64 isZero (imm 1) halved

def refineTimes (scaled : Value) : Nat → Value → Emit Value
  | 0, guess => return guess
  | n + 1, guess => do refineTimes scaled n (← refine scaled guess)

/-- A value that is not positive is replaced by one, and the root of that thrown away. -/
def sqrt (x : Value) (r : TempId) : Emit Value := do
  let positive ← compareTo .sgt x (imm 0)
  let input ← select .i32 positive x (imm 1)
  let wide ← emit .sext .i64 [input]
  let scaled ← intOp .shl .i64 wide (imm fraction)
  let first ← intOp .ashr .i64 scaled (imm 9)
  let tooSmall ← compareTo .slt first (imm 1)
  let initial ← select .i64 tooSmall (imm 1) first
  let guess ← refineTimes scaled Fixed.Sqrt.steps initial
  let shifted ← intOp .ashr .i64 guess (imm 8)
  let root ← emit .trunc .i32 [shifted]
  define .select .i32 [positive, root, imm 0] r

def toWord32 (v : Value) : Ty → Emit Value
  | .i64 => emit .trunc .i32 [v]
  | .i32 => return v
  | _ => emit .sext .i32 [v]

def ofInt (v : Value) (type : Ty) (r : TempId) : Emit Value := do
  let narrow ← toWord32 v type
  define (.int .shl) .i32 [narrow, imm fraction] r

def toInt (v : Value) (type : Ty) (r : TempId) : Emit Value :=
  match type with
  | .i32 => define (.int .ashr) .i32 [v, imm fraction] r
  | _ => do
    let whole ← intOp .ashr .i32 v (imm fraction)
    define (if type = .i64 then .sext else .trunc) type [whole] r

def compare (c : FloatCompare) (a b : Value) (r : TempId) : Emit Value :=
  define (.icmp c.onEncodings) .i1 [a, b] r

def ofFloatOp (op : FloatOp) (a b : Value) (r : TempId) : Emit Value :=
  match op with
  | .add => add a b r
  | .sub => sub a b r
  | .mul => mul a b r
  | .div => div a b r
  | .neg => neg a r
  | .abs => abs a r
  | .min => min a b r
  | .max => max a b r
  | .sqrt => sqrt a r

end FixedIL.Lowering.Sequence
