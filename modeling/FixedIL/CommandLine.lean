import FixedIL.Builder
import FixedIL.Builtin.Catalog
import FixedIL.Machine.Run
import FixedIL.Pipeline

/-!
The command line as a function of its arguments. A command lists the builtins, prints
how each of them returns on a target, or lowers a small shader and runs it beside its
float form.
-/
namespace FixedIL.CommandLine

structure Reply where
  code : UInt32
  out : String
  err : String
  deriving DecidableEq, Repr

inductive Command where
  | selfcheck
  | returns (target : Target)
  | demo (options : Pipeline.Options)
  deriving DecidableEq, Repr

inductive Refusal where
  | usage
  | noTarget
  | unknownTarget (name : String)
  deriving DecidableEq, Repr

def usageText : String :=
  "Usage: qfxc selfcheck\n" ++
  "       qfxc abi [--target <name>]\n" ++
  "       qfxc demo [--target <name>] [--trace] [-print-before] [-print-after]\n" ++
  "\nTargets: " ++ ", ".intercalate ("host" :: Target.all.map Target.name) ++ "\n"

def Refusal.message : Refusal → String
  | .usage => usageText
  | .noTarget => "--target requires a value\n"
  | .unknownTarget name => "unknown target '" ++ name ++ "'\n"

def returnsOptions (target : Target) : List String → Except Refusal Target
  | [] => .ok target
  | "--target" :: [] => .error .noTarget
  | "--target" :: name :: rest =>
    match Target.ofName? name with
    | none => .error (.unknownTarget name)
    | some t => returnsOptions t rest
  | _ :: _ => .error .usage

def demoOptions (o : Pipeline.Options) : List String → Except Refusal Pipeline.Options
  | [] => .ok o
  | "--target" :: [] => .error .noTarget
  | "--target" :: name :: rest =>
    if (Target.ofName? name).isSome then demoOptions { o with target := name } rest
    else .error (.unknownTarget name)
  | "--trace" :: rest => demoOptions { o with trace := true } rest
  | "-print-before" :: rest => demoOptions { o with printBefore := true } rest
  | "-print-after" :: rest => demoOptions { o with printAfter := true } rest
  | _ :: _ => .error .usage

def Command.ofArgs : List String → Except Refusal Command
  | ["selfcheck"] => .ok .selfcheck
  | "abi" :: rest => (returnsOptions .host rest).map .returns
  | "demo" :: rest => (demoOptions { Pipeline.Options.standard with stream := true } rest).map .demo
  | _ => .error .usage

/- Listing the builtins. -/

def variantName (v : Option Builtin.Variant) : String := (v.map Builtin.Variant.name).getD "Any"

def memberLine (m : Builtin.Implementation) : String :=
  "  " ++ variantName m.variant ++ " -> " ++ m.symbol ++ " (" ++ m.site ++ ")\n"

def builtinLines (r : Builtin.Registry) (d : Builtin.Descriptor) : String :=
  d.prototype.text ++ "\n" ++ String.join ((r.members d).map memberLine)

def listBuiltins (r : Builtin.Registry) : Reply :=
  let total := toString r.descriptors.length ++ " builtins, " ++
    toString r.implementations.length ++ " implementations: ok\n"
  ⟨0, String.join (r.descriptors.map (builtinLines r)) ++ total, ""⟩

/- Printing return plans. -/

def returnLine? (r : Builtin.Registry) (t : Target) (d : Builtin.Descriptor) :
    Option (Except Diagnostic String) :=
  (r.implementationFor? d .fixedPoint).map fun m =>
    match ReturnPlan.classify (d.prototype.flatten .fixedPoint).returnTypes t with
    | .error e => .error e.diagnostic
    | .ok plan => .ok ("  " ++ m.symbol ++ ": " ++ plan.describe t ++ "\n")

def printReturns (r : Builtin.Registry) (t : Target) : Reply :=
  let lines := r.descriptors.filterMap (returnLine? r t)
  let log : DiagnosticLog := ⟨lines.filterMap fun
    | .error d => some d
    | .ok _ => none⟩
  let printed := lines.filterMap fun
    | .error _ => none
    | .ok line => some line
  ⟨if log.count .error = 0 then 0 else 1, "target " ++ t.name ++ "\n" ++ String.join printed,
    log.render⟩

/- The demonstration. -/

def shader : Program :=
  let (f, b) := Builder.start.startFunction "shade" (.ofTypes [.f32, .f32, .f32] [.f32])
  let (params, b) := b.addEntryBlock f "entry"
  let b := b.setInsertPoint ⟨f, 0⟩
  match params with
  | [a, b', c] =>
    let code : Emit Unit := do
      let sum ← Emit.emit (.float .add) .f32 [.temp a.id, .temp b'.id]
      let product ← Emit.emit (.float .mul) .f32 [sum, .temp c.id]
      Emit.ret [product]
    (b.emit code).2.program
  | _ => b.program

def inputs : List Float := [1.5, 2.5, 2]

def runShader (p : Program) (registry : Option Builtin.Registry) (args : List Word) :
    Except Diagnostic Word :=
  match (Machine.runFunction ⟨p, registry, .ieee⟩ .standard "shade" args).outcome with
  | .failed e => .error e.diagnostic
  | .returned results => .ok (results.headD 0)

def number (x : Float) : String := Decimal.general 6 (.ofFloat x)

def hex (w : UInt32) : String := "0x" ++ String.ofList (Nat.toDigits 16 w.toNat)

def expression : String :=
  match inputs.map number with
  | [a, b, c] => "(" ++ a ++ " + " ++ b ++ ") * " ++ c ++ " = "
  | _ => ""

def compareRuns (r : Builtin.Registry) (lowered : Program) : Except Diagnostic Reply := do
  let float ← runShader shader none (inputs.map Word.ofFloat)
  let encoded ← runShader lowered (some r)
    (inputs.map fun x => Word.ofInt64 (Fixed.ofFloat x).toInt64)
  let float := Word.asFloat float
  let fixed := (Fixed.toFloat32 encoded.toUInt32.toInt32).toFloat
  .ok ⟨if fixed == float then 0 else 1,
    "float:   " ++ expression ++ number float ++ "\n" ++
      "fixed32: " ++ expression ++ number fixed ++ " (" ++ hex encoded.toUInt32 ++ ")\n", ""⟩

def demonstrate (r : Builtin.Registry) (o : Pipeline.Options) : Reply :=
  let report := Pipeline.run o (.ok r) shader
  match report.result with
  | .error d => ⟨1, "", report.trace ++ d.render⟩
  | .ok lowered =>
    let text := Printer.program lowered
    match compareRuns r lowered with
    | .error d => ⟨1, text, report.trace ++ d.render⟩
    | .ok reply => ⟨reply.code, text ++ reply.out, report.trace⟩

def Command.run (registry : Except LoweringError Builtin.Registry) (c : Command) : Reply :=
  match registry with
  | .error e => ⟨1, "", e.diagnostic.render⟩
  | .ok r =>
    match c with
    | .selfcheck => listBuiltins r
    | .returns t => printReturns r t
    | .demo o => demonstrate r o

def run (args : List String) : Reply :=
  match Command.ofArgs args with
  | .error refusal => ⟨1, "", refusal.message⟩
  | .ok c => c.run Builtin.defaultRegistry

end FixedIL.CommandLine
