import FixedIL.FloatFree
import FixedIL.Lowering.Pass

/-!
The pipeline from a float program to a checked fixed-point one. It stops at the first
error; what it has to report on the way is kept beside the result.
-/
namespace FixedIL.Pipeline

structure Options where
  trace : Bool
  verify : Bool
  printBefore : Bool
  printAfter : Bool
  target : String
  stream : Bool
  deriving DecidableEq, Repr

def Options.standard : Options := ⟨false, true, false, false, "host", false⟩

def tag : String := "[fixed32] "

def dump (when_ : String) (p : Program) : String :=
  String.join (p.functions.map fun f => tag ++ when_ ++ " @" ++ f.name ++ "\n" ++ Printer.function f)

structure Report where
  trace : String
  result : Except Diagnostic Program

def check (p : Program) : Except Diagnostic Unit :=
  match p.fault? with
  | some fault => .error fault.diagnostic
  | none =>
    match p.functions.findSome? Function.float? with
    | some v => .error v.diagnostic
    | none => .ok ()

def onlyIf (b : Bool) (text : String) : String := if b then text else ""

def targetLine (t : Target) (p : Program) (r : Builtin.Registry) : String :=
  tag ++ "target " ++ t.name ++ ", " ++ toString p.functions.length ++ " function(s), " ++
    toString r.descriptors.length ++ " builtin(s)\n"

def lower (o : Options) (r : Builtin.Registry) (t : Target) (p : Program) : Report :=
  let traced := o.stream && o.trace
  let opening := onlyIf traced (targetLine t p r) ++
    onlyIf (o.stream && o.printBefore) (dump "before" p)
  let (lines, result) := (Lowering.pass ⟨r, t, .fixed16x16⟩).runTraced p
  let opening := opening ++ onlyIf traced (String.join lines)
  match result with
  | .error e => ⟨opening, .error e.diagnostic⟩
  | .ok lowered =>
    let opening := opening ++ onlyIf (o.stream && o.printAfter) (dump "after" lowered)
    if o.verify then
      match check lowered with
      | .error d => ⟨opening, .error d⟩
      | .ok () => ⟨opening ++ onlyIf traced (tag ++ "verified\n"), .ok lowered⟩
    else ⟨opening, .ok lowered⟩

def run (o : Options) (registry : Except LoweringError Builtin.Registry) (p : Program) : Report :=
  match registry with
  | .error e =>
    ⟨onlyIf (o.stream && o.trace) (tag ++ "builtin registry rejected: " ++ e.message ++ "\n"),
      .error e.diagnostic⟩
  | .ok r =>
    match Target.ofName? o.target with
    | none => ⟨"", .error (.error .unknown ("unknown target '" ++ o.target ++ "'"))⟩
    | some t => lower o r t p

end FixedIL.Pipeline
