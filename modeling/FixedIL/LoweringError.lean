import FixedIL.Printer

/-!
Why a program or a set of builtins is refused. Each cause has a stable identity and
code, and a message made from a template whose holes are filled by name.
-/
namespace FixedIL

inductive Template.Piece where
  | text (s : String)
  | hole (name : String)
  deriving DecidableEq, Repr

abbrev Template := List Template.Piece

namespace Template

def fillPiece (values : List (String × String)) : Piece → String
  | .text s => s
  | .hole name => (values.lookup name).getD ("\x7b" ++ name ++ "\x7d")

/-- The first value of a name is used; a hole that has none stays as it is written. -/
def fill (t : Template) (values : List (String × String)) : String :=
  String.join (t.map (fillPiece values))

end Template

inductive ErrorKind where
  | unsupportedInstruction
  | shapeMismatch
  | missingVariant
  | duplicateVariant
  | signatureMismatch
  | unknownFunction
  deriving DecidableEq, Repr

namespace ErrorKind

def all : List ErrorKind :=
  [.unsupportedInstruction, .shapeMismatch, .missingVariant, .duplicateVariant,
    .signatureMismatch, .unknownFunction]

def name : ErrorKind → String
  | .unsupportedInstruction => "unsupported-instruction"
  | .shapeMismatch => "instruction-shape-mismatch"
  | .missingVariant => "missing-builtin-variant"
  | .duplicateVariant => "duplicate-builtin-variant"
  | .signatureMismatch => "builtin-signature-mismatch"
  | .unknownFunction => "unknown-builtin-function"

def code : ErrorKind → String
  | .unsupportedInstruction => "E-FX001"
  | .shapeMismatch => "E-FX002"
  | .missingVariant => "E-FX003"
  | .duplicateVariant => "E-FX004"
  | .signatureMismatch => "E-FX005"
  | .unknownFunction => "E-FX006"

def severity : ErrorKind → Severity := fun _ => .error

def template : ErrorKind → Template
  | .unsupportedInstruction =>
    [.text "function '", .hole "function", .text "': no fixed-point lowering for '",
      .hole "opcode", .text "' (", .hole "category", .text ")"]
  | .shapeMismatch =>
    [.text "function '", .hole "function", .text "': malformed '", .hole "opcode", .text "': ",
      .hole "detail"]
  | .missingVariant =>
    [.text "builtin '", .hole "builtin", .text "' has no ", .hole "variant",
      .text " implementation (declared: ", .hole "found", .text ")"]
  | .duplicateVariant =>
    [.text "builtin '", .hole "builtin", .text "' declares its ", .hole "variant",
      .text " implementation twice: ", .hole "first", .text " and ", .hole "second"]
  | .signatureMismatch =>
    [.text "builtin '", .hole "builtin", .text "' variants disagree: ", .hole "float",
      .text " vs ", .hole "fixed"]
  | .unknownFunction =>
    [.text "function '", .hole "function", .text "': call to unknown function '",
      .hole "builtin", .text "'"]

end ErrorKind

inductive Malformed where
  | operandCount (expected found : Nat)
  | resultCount (expected found : Nat)
  | definedTwice (id : TempId)
  | unknownTarget (label : String)
  | notAFrameSlot
  | floatTypeNeeded
  | intLiteralNeeded
  | literalNeeded
  | intOperandNeeded
  | intResultNeeded
  | oneCondition
  | noCallee
  | callArgs (symbol : String) (expected found : Nat)
  | callResults (symbol : String) (expected found : Nat)
  | returns (reason : String)
  | stated (detail : String)
  deriving DecidableEq, Repr

def Malformed.detail : Malformed → String
  | .operandCount expected found =>
    "expected " ++ toString expected ++ " operands, found " ++ toString found
  | .resultCount expected found =>
    "expected " ++ toString expected ++ " results, found " ++ toString found
  | .definedTwice id => "value " ++ Value.tempText id ++ " is defined twice"
  | .unknownTarget label => "unknown branch target '" ++ label ++ "'"
  | .notAFrameSlot => "stack slot operand does not name a slot"
  | .floatTypeNeeded => "operation type must be f32 or f64"
  | .intLiteralNeeded => "iconst operand must be an integer literal"
  | .literalNeeded => "fconst operand must be a literal"
  | .intOperandNeeded => "sitofp operand must be an integer"
  | .intResultNeeded => "fptosi must produce i8, i16, i32 or i64"
  | .oneCondition => "cbr takes exactly one condition"
  | .noCallee => "call has no callee"
  | .callArgs symbol expected found =>
    "@" ++ symbol ++ " takes " ++ toString expected ++ " arguments, found " ++ toString found
  | .callResults symbol expected found =>
    "@" ++ symbol ++ " returns " ++ toString expected ++ " values, found " ++ toString found
  | .returns reason => reason
  | .stated detail => detail

/-- Errors about an instruction name its function; errors about builtins name the builtin
and what was declared for it. -/
inductive LoweringError where
  | unsupported (function : String) (instr : Instr)
  | malformed (function : String) (instr : Instr) (why : Malformed)
  | unknownFunction (function : String) (instr : Instr)
  | unsupportedFormat (format : String)
  | missingVariant (builtin missing : String) (found : List String)
  | duplicateVariant (builtin variant firstSite secondSite : String)
  | signatureMismatch (builtin floatSig fixedSig : String)
  | malformedPrototype (message : String)
  deriving DecidableEq, Repr

namespace LoweringError

def kind : LoweringError → ErrorKind
  | .unsupported .. | .unsupportedFormat _ => .unsupportedInstruction
  | .malformed .. => .shapeMismatch
  | .unknownFunction .. => .unknownFunction
  | .missingVariant .. => .missingVariant
  | .duplicateVariant .. => .duplicateVariant
  | .signatureMismatch .. | .malformedPrototype _ => .signatureMismatch

def function : LoweringError → String
  | .unsupported f _ | .malformed f _ _ | .unknownFunction f _ => f
  | _ => ""

def instr? : LoweringError → Option Instr
  | .unsupported _ i | .malformed _ i _ | .unknownFunction _ i => some i
  | _ => none

def instrText (e : LoweringError) : String := (e.instr?.map Printer.instr).getD ""

def loc (e : LoweringError) : Loc := (e.instr?.map Instr.loc).getD .unknown

def builtin : LoweringError → String
  | .unknownFunction _ i => i.callee
  | .missingVariant b .. | .duplicateVariant b .. | .signatureMismatch b .. => b
  | _ => ""

def subjects : LoweringError → List String
  | .missingVariant _ missing found => missing :: found
  | .duplicateVariant _ variant first second => [variant, first, second]
  | .signatureMismatch _ float fixed => [float, fixed]
  | _ => []

def foundText (found : List String) : String :=
  let text := ", ".intercalate found
  if text.isEmpty then "none" else text

def values : LoweringError → List (String × String)
  | .unsupported f i =>
    [("function", f), ("opcode", i.op.mnemonic), ("category", i.op.category.name)]
  | .malformed f i why => [("function", f), ("opcode", i.op.mnemonic), ("detail", why.detail)]
  | .unknownFunction f i => [("function", f), ("builtin", i.callee)]
  | .missingVariant b missing found =>
    [("builtin", b), ("variant", missing), ("found", foundText found)]
  | .duplicateVariant b variant first second =>
    [("builtin", b), ("variant", variant), ("first", first), ("second", second)]
  | .signatureMismatch b float fixed => [("builtin", b), ("float", float), ("fixed", fixed)]
  | .unsupportedFormat _ | .malformedPrototype _ => []

def message (e : LoweringError) : String :=
  match e with
  | .unsupportedFormat format => "fixed-point format '" ++ format ++ "' is not supported"
  | .malformedPrototype message => message
  | e => e.kind.template.fill e.values

def diagnostic (e : LoweringError) : Diagnostic :=
  ⟨e.kind.severity, e.message, e.loc, e.kind.code⟩

end LoweringError
end FixedIL
