import FixedIL.Native.Routine

/-!
Routines with known lanes, for trying a return convention out: a constant, and five
lanes made of the sum of the arguments.
-/
namespace FixedIL.Native.Probe

def answer : NativeRoutine := .ofInts fun _ => [42]

def fiveInts (n : Nat) : NativeRoutine := .ofInts fun arg =>
  let sum := (List.range n).foldl (fun s i => s + arg i) 0
  (List.range 5).map fun k => sum + 11 * k.toInt32

def fiveFloats (n : Nat) : NativeRoutine := .ofFloats fun arg =>
  let sum := (List.range n).foldl (fun s i => s + arg i) 0
  (List.range 5).map fun k => sum + k.toFloat32

def named : List (String × NativeRoutine) :=
  ("fix_answer", answer) ::
    (List.range 5).flatMap fun n =>
      [("fix_five_i" ++ toString n, fiveInts n), ("fix_five_f" ++ toString n, fiveFloats n)]

end FixedIL.Native.Probe
