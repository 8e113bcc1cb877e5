/-!
Q16.16 arithmetic as the native routines carry it out, on the unsigned bits of a lane.
-/
namespace FixedIL.Native.Lane

def one : Int32 := 65536

def add (a b : Int32) : Int32 := (a.toUInt32 + b.toUInt32).toInt32

def sub (a b : Int32) : Int32 := (a.toUInt32 - b.toUInt32).toInt32

def mul (a b : Int32) : Int32 :=
  ((a.toInt64 * b.toInt64) >>> 16).toUInt64.toUInt32.toInt32

def abs (a : Int32) : Int32 := if a < 0 then (0 - a.toUInt32).toInt32 else a

def min (a b : Int32) : Int32 := if a < b then a else b

def wideMagnitude (a : Int32) : UInt64 :=
  if a < 0 then (0 - a.toUInt32).toUInt64 else a.toUInt32.toUInt64

def narrowMagnitude (a : Int32) : UInt32 := if a < 0 then 0 - a.toUInt32 else a.toUInt32

def div (a b : Int32) : Int32 :=
  if b = 0 then
    if a = 0 then 0 else if a < 0 then -2147483648 else 2147483647
  else
    let recip : UInt32 := 0x80000000 / narrowMagnitude b
    let q := (((wideMagnitude a * recip.toUInt64) <<< 1) >>> 16).toUInt32
    if a ^^^ b < 0 then (0 - q).toInt32 else q.toInt32

def clamp01 (a : Int32) : Int32 := if a < 0 then 0 else if one < a then one else a

end FixedIL.Native.Lane
