import FixedIL.Printer

/-!
The rules a program has to follow before it may be run or handed on. The checks look
for the first fault in a fixed order; a program is well formed if there is none.
-/
namespace FixedIL

inductive Fault where
  | noBlocks
  | entryParamCount
  | entryParamType (index : Nat)
  | structReturnWithReturns
  | duplicateLabel (label : String)
  | redefined (id : TempId)
  | noTerminator (label : String)
  | earlyTerminator (label : String)
  | operandCount
  | notOneResult
  | unexpectedResult
  | resultType
  | undefinedTemp (id : TempId)
  | targetCount
  | branchLists
  | unknownLabel (label : String)
  | branchArgCount (label : String)
  | branchArgType (label : String)
  | returnCount
  | returnType
  | unknownCallee (callee : String)
  | argCount (callee : String)
  | resultCount (callee : String)
  | argType (callee : String)
  | callResultType (callee : String)
  | floatArithType
  | operandType (index : Nat) (found expected : Ty)
  | floatCompareType
  | intArithType
  | selectCondition
  | selectArm
  | addressType
  | storedType
  | offsetNotConstant
  | frameSlot
  | floatSignature
  | floatParam (label : String)
  | floatInstr
  | floatResult
  | floatLiteral
  deriving DecidableEq, Repr

def Fault.message : Fault → String
  | .noBlocks => "function has no blocks"
  | .entryParamCount => "entry block parameters do not match signature"
  | .entryParamType i => "entry parameter " ++ toString i ++ " type mismatch"
  | .structReturnWithReturns => "struct-return function must not declare returns"
  | .duplicateLabel l => "duplicate label " ++ l
  | .redefined id => "temporary " ++ Value.tempText id ++ " defined twice"
  | .noTerminator l => "block " ++ l ++ " lacks a terminator"
  | .earlyTerminator l => "terminator in the middle of block " ++ l
  | .operandCount => "wrong operand count"
  | .notOneResult => "expected exactly one result"
  | .unexpectedResult => "instruction cannot define a result"
  | .resultType => "result type disagrees with instruction type"
  | .undefinedTemp id => "use of undefined temporary " ++ Value.tempText id
  | .targetCount => "wrong number of branch targets"
  | .branchLists => "branch argument lists do not match targets"
  | .unknownLabel l => "unknown label " ++ l
  | .branchArgCount l => "argument count mismatch for " ++ l
  | .branchArgType l => "argument type mismatch for " ++ l
  | .returnCount => "return arity does not match signature"
  | .returnType => "return type mismatch"
  | .unknownCallee c => "unknown callee @" ++ c
  | .argCount c => "argument count mismatch for @" ++ c
  | .resultCount c => "result count mismatch for @" ++ c
  | .argType c => "argument type mismatch for @" ++ c
  | .callResultType c => "result type mismatch for @" ++ c
  | .floatArithType => "float arithmetic on non-float type"
  | .operandType i found expected =>
    "operand " ++ toString i ++ " has type " ++ found.name ++ ", expected " ++ expected.name
  | .floatCompareType => "float comparison on non-float operand"
  | .intArithType => "integer arithmetic on non-integer type"
  | .selectCondition => "select condition must be i1"
  | .selectArm => "select arm type mismatch"
  | .addressType => "address operand must be ptr"
  | .storedType => "stored value type mismatch"
  | .offsetNotConstant => "offset must be an integer constant"
  | .frameSlot => "invalid stack slot"
  | .floatSignature => "float type in signature"
  | .floatParam l => "float parameter in block " ++ l
  | .floatInstr => "float-typed instruction"
  | .floatResult => "float-typed result"
  | .floatLiteral => "float immediate"

structure Violation where
  function : String
  instr : Option Instr
  fault : Fault
  deriving DecidableEq, Repr

def Violation.diagnostic (v : Violation) : Diagnostic :=
  match v.instr with
  | none => .error .unknown (v.function ++ ": " ++ v.fault.message)
  | some i =>
    .error i.loc (v.function ++ ": '" ++ Printer.instr i ++ "': " ++ v.fault.message)

inductive ProgramFault where
  | duplicateSymbol (name : String)
  | violation (v : Violation)
  deriving DecidableEq, Repr

def ProgramFault.diagnostic : ProgramFault → Diagnostic
  | .duplicateSymbol name => .error .unknown ("duplicate symbol @" ++ name)
  | .violation v => v.diagnostic

namespace WellFormed

def require (ok : Bool) (fault : Fault) : Option Fault := if ok then none else some fault

theorem requireNone {ok : Bool} {fault : Fault} : require ok fault = none ↔ ok = true := by
  cases ok <;> simp [require]

def tempType? (types : List Temp) (id : TempId) : Option Ty :=
  (types.find? (fun t => t.id = id)).map Temp.type

def typeOf? (types : List Temp) : Value → Option Ty
  | .temp id => tempType? types id
  | _ => none

def satisfies (types : List Temp) (v : Value) (p : Ty → Bool) : Bool := (typeOf? types v).all p

def hasType (types : List Temp) (v : Value) (t : Ty) : Bool := satisfies types v (fun s => s = t)

def firstClash (types : List Temp) (wanted : List (Value × Ty)) (fault : Fault) : Option Fault :=
  require (wanted.all (fun w => hasType types w.1 w.2)) fault

def undefined? (types : List Temp) (vs : List Value) : Option Fault :=
  vs.findSome? fun
    | .temp id => require (types.any (fun t => t.id = id)) (.undefinedTemp id)
    | _ => none

def branch? (f : Function) (types : List Temp) (i : Instr) : Option Fault :=
  require (i.branchArgs.length = i.labels.length) .branchLists <|>
  (i.labels.zip i.branchArgs).findSome? fun (label, args) =>
    match f.blockNamed? label with
    | none => some (.unknownLabel label)
    | some b =>
      require (b.params.length = args.length) (.branchArgCount label) <|>
      firstClash types (args.zip (b.params.map Temp.type)) (.branchArgType label)

def call? (p : Program) (types : List Temp) (i : Instr) : Option Fault :=
  match p.calleeSig? i.callee with
  | none => some (.unknownCallee i.callee)
  | some sig =>
    require (sig.params.length = i.operands.length) (.argCount i.callee) <|>
    require (sig.returns.length = i.results.length) (.resultCount i.callee) <|>
    firstClash types (i.operands.zip (sig.params.map Slot.type)) (.argType i.callee) <|>
    require ((i.results.zip sig.returns).all (fun r => r.1.type = r.2.type))
      (.callResultType i.callee)

def return? (f : Function) (types : List Temp) (i : Instr) : Option Fault :=
  require (i.operands.length = f.sig.returns.length) .returnCount <|>
  firstClash types (i.operands.zip f.sig.returnTypes) .returnType

def operandTypes? (types : List Temp) (i : Instr) : Option Fault :=
  i.operands.zipIdx.findSome? fun (v, k) =>
    match typeOf? types v with
    | none => none
    | some t => require (t = i.type) (.operandType k t i.type)

def operands? (f : Function) (types : List Temp) (i : Instr) : Option Fault :=
  match i.op, i.operands with
  | .float _, _ => require i.type.isFloat .floatArithType <|> operandTypes? types i
  | .int _, _ => require i.type.isInteger .intArithType <|> operandTypes? types i
  | .fcmp _, vs => require (vs.all (satisfies types · Ty.isFloat)) .floatCompareType
  | .select, c :: arms =>
    require (hasType types c .i1) .selectCondition <|>
    require (arms.all (hasType types · i.type)) .selectArm
  | .load, [address, offset] =>
    require (hasType types address .ptr) .addressType <|>
    require offset.intLiteral?.isSome .offsetNotConstant
  | .store, [address, stored, offset] =>
    require (hasType types address .ptr) .addressType <|>
    require (hasType types stored i.type) .storedType <|>
    require offset.intLiteral?.isSome .offsetNotConstant
  | .stackaddr, slot :: _ =>
    require (slot.intLiteral?.any (fun n => 0 ≤ n.toInt && n.toInt < (f.slots.length : Int))) .frameSlot
  | _, _ => none

def results? (i : Instr) : Option Fault :=
  match i.op.results, i.results with
  | .one, [r] => require (r.type = i.type) .resultType
  | .one, _ => some .notOneResult
  | .none, rs => require rs.isEmpty .unexpectedResult
  | .variadic, _ => none

def instr? (p : Program) (f : Function) (types : List Temp) (i : Instr) : Option Fault :=
  require (i.op.acceptsOperands i.operands.length) .operandCount <|>
  results? i <|>
  undefined? types i.operands <|>
  undefined? types i.branchArgs.flatten <|>
  match i.op with
  | .br => require (i.labels.length = 1) .targetCount <|> branch? f types i
  | .cbr => require (i.labels.length = 2) .targetCount <|> branch? f types i
  | .ret => return? f types i
  | .call => call? p types i
  | _ => operands? f types i

def redefined? (seen : List TempId) : List Temp → Option TempId
  | [] => none
  | t :: rest => if seen.contains t.id then some t.id else redefined? (t.id :: seen) rest

def instrsRedefine? (seen : List TempId) : List Instr → Option (Instr × TempId)
  | [] => none
  | i :: rest =>
    match redefined? seen i.results with
    | some id => some (i, id)
    | none => instrsRedefine? (i.results.map Temp.id ++ seen) rest

/-- Labels and temporaries are defined once; the order of definitions decides which of two
faults is found. -/
def definitions? (name : String) (labels : List String) (seen : List TempId) :
    List Block → Option Violation
  | [] => none
  | b :: rest =>
    if labels.contains b.label then some ⟨name, none, .duplicateLabel b.label⟩
    else
      match redefined? seen b.params with
      | some id => some ⟨name, none, .redefined id⟩
      | none =>
        let seen := b.params.map Temp.id ++ seen
        match instrsRedefine? seen b.instrs with
        | some (i, id) => some ⟨name, some i, .redefined id⟩
        | none =>
          definitions? name (b.label :: labels)
            ((b.instrs.flatMap Instr.results).map Temp.id ++ seen) rest

def instrs? (p : Program) (f : Function) (types : List Temp) (label : String) :
    List Instr → Option Violation
  | [] => none
  | i :: rest =>
    ((require (rest.isEmpty || !i.isTerminator) (.earlyTerminator label) <|>
      instr? p f types i).map (⟨f.name, some i, ·⟩)) <|>
    instrs? p f types label rest

def block? (p : Program) (f : Function) (types : List Temp) (b : Block) : Option Violation :=
  (require (b.instrs.getLast?.any Instr.isTerminator) (.noTerminator b.label)).map
    (⟨f.name, none, ·⟩) <|>
  instrs? p f types b.label b.instrs

def entryTypes? (entry : List Temp) (params : List Slot) : Option Fault :=
  ((entry.zip params).zipIdx).findSome? fun ((t, s), k) =>
    require (t.type = s.type) (.entryParamType k)

def header? (f : Function) : Option Fault :=
  match f.blocks with
  | [] => some .noBlocks
  | entry :: _ =>
    require (entry.params.length = f.sig.params.length) .entryParamCount <|>
    entryTypes? entry.params f.sig.params <|>
    require (f.sig.structReturnIndex?.isNone || f.sig.returns.isEmpty) .structReturnWithReturns

end WellFormed

open WellFormed

def Function.violation? (f : Function) (p : Program) : Option Violation :=
  (header? f).map (⟨f.name, none, ·⟩) <|>
  definitions? f.name [] [] f.blocks <|>
  f.blocks.findSome? (block? p f f.temps)

def WellFormed.repeatedName? (seen : List String) : List String → Option String
  | [] => none
  | s :: rest => if seen.contains s then some s else repeatedName? (s :: seen) rest

namespace Program

def symbols (p : Program) : List String :=
  p.externs.map Extern.name ++ p.functions.map Function.name

def fault? (p : Program) : Option ProgramFault :=
  (repeatedName? [] p.symbols).map .duplicateSymbol <|>
  (p.functions.findSome? (·.violation? p)).map .violation

def WellFormed (p : Program) : Prop := p.fault? = none

instance (p : Program) : Decidable p.WellFormed := by unfold WellFormed; infer_instance

end Program
end FixedIL
