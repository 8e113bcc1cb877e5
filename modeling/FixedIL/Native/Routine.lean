import FixedIL.Bytes

/-!
Native routines as seen from outside: argument cells go in, the bytes of the result
come out. A cell is a word of which a routine reads the low 32 bits. Routines work by value and
are stateless: none of them reads or changes memory, so that one which is given the address of an
`out` or `inout` variable is not among them.
-/
namespace FixedIL

abbrev NativeRoutine := List UInt64 → List UInt8

namespace NativeRoutine

def lane (cells : List UInt64) (i : Nat) : UInt32 := (cells.getD i 0).toUInt32

def laneBytes (lanes : List UInt32) : List UInt8 :=
  lanes.flatMap (fun l => Bytes.ofWord 4 l.toUInt64)

def ofWords (f : (Nat → UInt32) → List UInt32) : NativeRoutine :=
  fun cells => laneBytes (f (lane cells))

def ofInts (f : (Nat → Int32) → List Int32) : NativeRoutine :=
  ofWords fun arg => (f fun i => (arg i).toInt32).map Int32.toUInt32

def ofFloats (f : (Nat → Float32) → List Float32) : NativeRoutine :=
  ofWords fun arg => (f fun i => Float32.ofBits (arg i)).map Float32.toBits

def lanes : Nat → List UInt8 → List UInt32
  | 0, _ => []
  | n + 1, bytes => (Bytes.toWord (bytes.take 4)).toUInt32 :: lanes n (bytes.drop 4)

end NativeRoutine
end FixedIL
