import FixedIL.Convention.ReturnPlan
import FixedIL.Native.Routine

/-!
Calling a native routine by a return plan. The call is possible only on the machine
that runs, with few arguments of one type; the lanes come back as the routine gives them.
-/
namespace FixedIL.NativeCall

inductive Arg where
  | int (v : Int32)
  | float (v : Float32)
  deriving DecidableEq, Repr

namespace Arg

def isFloat : Arg → Bool
  | .int _ => false
  | .float _ => true

def cell : Arg → UInt64
  | .int v => v.toUInt32.toUInt64
  | .float v => v.toBits.toUInt64

end Arg

inductive Error where
  | foreignTarget (name : String)
  | dedicatedAddress (location : String)
  | noResult
  | tooManyArgs
  | mixedArgs
  deriving DecidableEq, Repr

def maxArgs : Nat := 4

def Error.message : Error → String
  | .foreignTarget name => "cannot invoke " ++ name ++ " code on this host"
  | .dedicatedAddress location =>
    "struct-return through " ++ location ++ " cannot be expressed as a C call"
  | .noResult => "native invoker requires at least one return value"
  | .tooManyArgs => "native invoker supports at most " ++ toString maxArgs ++ " arguments"
  | .mixedArgs => "native invoker requires arguments of a single type"

def Error.diagnostic (e : Error) : Diagnostic := .error .unknown e.message

def uniform : List Arg → Bool
  | [] => true
  | a :: rest => rest.all (fun b => b.isFloat = a.isFloat)

def invoke (routine : NativeRoutine) (plan : ReturnPlan) (t : Target) (args : List Arg) :
    Except Error (List UInt32) :=
  if !t.isHost then .error (.foreignTarget t.name)
  else if plan.addressInRegister then .error (.dedicatedAddress t.sretLocation)
  else if plan.types.isEmpty then .error .noResult
  else if maxArgs < args.length then .error .tooManyArgs
  else if !uniform args then .error .mixedArgs
  else .ok (NativeRoutine.lanes plan.types.length (routine (args.map Arg.cell)))

end FixedIL.NativeCall
