import FixedIL.Printer

/-!
How a run can fail. A trap names the function it happened in, and the instruction if
there is one; a missing binding or entry point has no place.
-/
namespace FixedIL

inductive TrapCause where
  | stepLimit
  | callDepth
  | noBody
  | argumentCount (expected : Nat)
  | unknownLabel (label : String)
  | branchArguments
  | divisionByZero
  | frameSlot
  | nullDereference
  | unknownCallee (callee : String)
  | returnedCount
  | fellThrough (label : String)
  | malformed
  | wildAccess
  deriving DecidableEq, Repr

def TrapCause.message : TrapCause → String
  | .stepLimit => "step limit exceeded"
  | .callDepth => "call depth exceeded"
  | .noBody => "function has no body"
  | .argumentCount expected => "expected " ++ toString expected ++ " arguments"
  | .unknownLabel label => "unknown label " ++ label
  | .branchArguments => "branch argument count mismatch"
  | .divisionByZero => "division by zero"
  | .frameSlot => "invalid stack slot"
  | .nullDereference => "null dereference"
  | .unknownCallee callee => "unknown callee @" ++ callee
  | .returnedCount => "callee returned a different number of values"
  | .fellThrough label => "block " ++ label ++ " fell through"
  | .malformed => "malformed instruction"
  | .wildAccess => "access outside a stack slot"

inductive RunError where
  | trap (function : String) (instr : Option Instr) (cause : TrapCause)
  | noBinding (symbol : String)
  | unknownFunction (name : String)
  deriving DecidableEq, Repr

def RunError.diagnostic : RunError → Diagnostic
  | .trap f none cause => .error .unknown ("trap in @" ++ f ++ ": " ++ cause.message)
  | .trap f (some i) cause =>
    .error i.loc ("trap in @" ++ f ++ " at '" ++ Printer.instr i ++ "': " ++ cause.message)
  | .noBinding symbol => .error .unknown ("no native binding for @" ++ symbol)
  | .unknownFunction name => .error .unknown ("unknown function @" ++ name)

end FixedIL
