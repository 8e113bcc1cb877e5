import FixedIL.Builtin.Registry
import FixedIL.Lowering.Sequence
import FixedIL.Pass.Context

/-!
The lowering of single instructions, one converter for each category. Float values
become Q16.16 integers; casts between float types and to or from the fixed-point form
leave no code, since all of these are the same number.
-/
namespace FixedIL.Lowering

open PassM

structure Config where
  registry : Builtin.Registry
  target : Target
  format : Fixed.Format

def expectShape (site : Site) (i : Instr) (operands results : Nat) : PassM Unit := do
  if i.operands.length ≠ operands then
    malformed site i (.operandCount operands i.operands.length)
  else if i.results.length ≠ results then
    malformed site i (.resultCount results i.results.length)

def numberLiteral? : Value → Option Float
  | .float x => some x
  | v => v.intLiteral?.map Int64.toFloat

def constant (site : Site) (i : Instr) : PassM Unit := do
  expectShape site i 1 1
  match i.operands, i.results with
  | v :: _, t :: _ =>
    if i.op = .iconst then
      if v.intLiteral?.isNone then malformed site i .intLiteralNeeded
      else let _ ← redefine i t .iconst i.type [v]
    else
      match numberLiteral? v with
      | none => malformed site i .literalNeeded
      | some x =>
        let _ ← redefine i t .iconst (site.encoding.mapTy i.type)
          [.int (Fixed.ofFloat x).toInt64]
  | _, _ => return

def passThrough (site : Site) (i : Instr) : PassM Unit := do
  if i.op = .select then
    expectShape site i 3 1
    for t in i.results.take 1 do
      let _ ← redefine i t .select (site.encoding.mapTy i.type) (← operands site i.operands)
  else copy site i

def bySequence (i : Instr) (sequence : TempId → Emit Value) : PassM Unit := do
  match i.results with
  | t :: _ =>
    emit' (sequence t.id)
    mapValue t.id (.temp t.id)
  | [] => return

def floatArith (site : Site) (i : Instr) (op : FloatOp) : PassM Unit := do
  expectShape site i op.operands 1
  if !i.type.isFloat then malformed site i .floatTypeNeeded
  else
    match ← operands site i.operands with
    | a :: rest => bySequence i (Sequence.ofFloatOp op a (rest.head?.getD a))
    | [] => return

def floatCompare (site : Site) (i : Instr) (c : FloatCompare) : PassM Unit := do
  expectShape site i 2 1
  match ← operands site i.operands with
  | a :: b :: _ => bySequence i (Sequence.compare c a b)
  | _ => return

def ofInt (site : Site) (i : Instr) (v : Value) : PassM Unit := do
  match v.intLiteral?, i.results with
  | some n, t :: _ =>
    let _ ← redefine i t .iconst .i32 [.int (Fixed.ofInt n.toInt32).toInt64]
  | _, _ =>
    match (site.typeOf? v).filter Ty.isInteger with
    | none => malformed site i .intOperandNeeded
    | some type => bySequence i (Sequence.ofInt (← operand site v) type)

def toInt (site : Site) (i : Instr) (v : Value) : PassM Unit := do
  if !i.type.isInteger || i.type = .i1 then malformed site i .intResultNeeded
  else bySequence i (Sequence.toInt (← operand site v) i.type)

def sameNumber (site : Site) (i : Instr) (v : Value) : PassM Unit := do
  match i.results with
  | t :: _ => mapValue t.id (← operand site v)
  | [] => return

def conversion (site : Site) (i : Instr) : PassM Unit := do
  expectShape site i 1 1
  match i.operands with
  | v :: _ =>
    match i.op with
    | .sitofp => ofInt site i v
    | .fptosi => toInt site i v
    | _ => sameNumber site i v
  | [] => return

def memory (site : Site) (i : Instr) : PassM Unit := do
  match i.op with
  | .stackaddr =>
    expectShape site i 2 1
    copy site i
  | .load =>
    expectShape site i 2 1
    for t in i.results.take 1 do
      let _ ← redefine i t .load (site.encoding.mapTy i.type) (← operands site i.operands)
  | .store =>
    expectShape site i 3 0
    emit (Emit.append { Instr.blank .store with
      type := site.encoding.mapTy i.type, operands := ← operands site i.operands,
      loc := i.loc })
  | _ => unsupported site i

def declare (symbol : String) (sig : Signature) : PassM Unit :=
  modify fun s =>
    if s.externs.any (fun e => e.name = symbol) then s
    else { s with externs := s.externs ++ [⟨symbol, sig⟩] }

def builtinTarget (c : Config) (site : Site) (i : Instr) (d : Builtin.Descriptor) :
    PassM CallTarget := do
  match c.registry.implementationFor? d .fixedPoint with
  | none => fail (.unknownFunction site.function.name i)
  | some m =>
    let flat := d.prototype.flatten .fixedPoint
    match ReturnPlan.classify flat.returnTypes c.target, ReturnPlan.legalize flat c.target with
    | .ok plan, .ok sig =>
      declare m.symbol sig
      return ⟨m.symbol, sig, plan⟩
    | .error e, _ | _, .error e => malformed site i (.returns e.message)

/-- Functions of the program come first, then builtins, then externs without floats. -/
def resolveCallee (c : Config) (site : Site) (i : Instr) : PassM CallTarget := do
  match site.signature? i.callee with
  | some sig => return ⟨i.callee, sig, .direct sig.returnTypes⟩
  | none =>
    match c.registry.findSymbol? i.callee with
    | some hit => builtinTarget c site i hit.descriptor
    | none =>
      match (site.program.externNamed? i.callee).filter (fun e => !e.sig.mentionsFloat) with
      | some e => return ⟨i.callee, e.sig, .direct e.sig.returnTypes⟩
      | none => fail (.unknownFunction site.function.name i)

def callTarget (c : Config) (site : Site) (i : Instr) : PassM CallTarget := do
  match (← get).callTargets.lookup i.callee with
  | some target => return target
  | none =>
    let target ← resolveCallee c site i
    modify fun s => { s with callTargets := insertNew i.callee target s.callTargets }
    return target

def call (c : Config) (site : Site) (i : Instr) : PassM Unit := do
  if i.callee.isEmpty then malformed site i .noCallee
  else
    let target ← callTarget c site i
    let hidden := if target.plan.usesBuffer then 1 else 0
    let args := target.sig.params.length - hidden
    if i.operands.length ≠ args then
      malformed site i (.callArgs target.symbol args i.operands.length)
    else if i.results.length ≠ target.plan.types.length then
      malformed site i (.callResults target.symbol target.plan.types.length i.results.length)
    else
      let ids := i.results.map Temp.id
      let _ ← emit (Emit.callByPlan target.symbol target.plan (← operands site i.operands) ids)
      keepTemps ids

def control (site : Site) (i : Instr) : PassM Unit := do
  if i.op = .cbr && i.operands.length ≠ 1 then malformed site i .oneCondition
  else copy site i

def hasConverter : Category → Bool
  | .floatRemainder => false
  | _ => true

def instr (c : Config) (site : Site) (i : Instr) : PassM Unit :=
  match i.op with
  | .iconst | .fconst => constant site i
  | .int _ | .icmp _ | .sext | .zext | .trunc | .zext1 | .trunc1 | .select => passThrough site i
  | .float op => floatArith site i op
  | .fcmp cmp => floatCompare site i cmp
  | .frem => unsupported site i
  | .sitofp | .fptosi | .fpext | .fptrunc | .tofixed | .fromfixed => conversion site i
  | .stackaddr | .load | .store => memory site i
  | .call => call c site i
  | .br | .cbr | .ret => control site i

end FixedIL.Lowering
