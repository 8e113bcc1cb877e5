import FixedIL.Builtin.Prototype
import FixedIL.Diagnostic

/-!
Reading prototypes: `type name(direction type name, ...)`, where direction and
parameter name may be left out. Blanks are the four ASCII ones.
-/
namespace FixedIL.Builtin

namespace Text

def isBlank (c : Char) : Bool := c == ' ' || c == '\t' || c == '\n' || c == '\r'

def trim (cs : List Char) : List Char :=
  ((cs.dropWhile isBlank).reverse.dropWhile isBlank).reverse

/-- The pieces between the separators, also the empty ones. -/
def split (separates : Char → Bool) : List Char → List (List Char)
  | [] => [[]]
  | c :: rest =>
    if separates c then [] :: split separates rest
    else
      match split separates rest with
      | [] => [[c]]
      | piece :: more => (c :: piece) :: more

def words (cs : List Char) : List (List Char) :=
  (split isBlank cs).filter (fun w => !w.isEmpty)

def splitParams (cs : List Char) : List (List Char) :=
  ((split (· == ',') cs).map trim).filter (fun w => !w.isEmpty)

def parenthesised (cs : List Char) : Option (List Char × List Char) := do
  let start ← cs.findIdx? (· == '(')
  let back ← cs.reverse.findIdx? (· == ')')
  let stop := cs.length - 1 - back
  if start < stop then some (cs.take start, (cs.take stop).drop (start + 1)) else none

end Text

def ShaderTy.ofText? (cs : List Char) : Option ShaderTy :=
  all.find? (fun t => t.name.toList = Text.trim cs)

def Direction.ofText? (cs : List Char) : Option Direction :=
  all.find? (fun d => d.name.toList = cs)

inductive PrototypeError where
  | noParameterList
  | notTypeAndName
  | unknownReturnType (word : String)
  | noParamType (param : String)
  | unknownParamType (word : String)
  | trailingWords (param : String)
  deriving DecidableEq, Repr

def PrototypeError.message : PrototypeError → String
  | .noParameterList => "missing parameter list"
  | .notTypeAndName => "expected '<type> <name>' before '('"
  | .unknownReturnType word => "unknown return type '" ++ word ++ "'"
  | .noParamType param => "parameter '" ++ param ++ "' has no type"
  | .unknownParamType word => "unknown parameter type '" ++ word ++ "'"
  | .trailingWords param => "unexpected tokens in parameter '" ++ param ++ "'"

namespace Param

def ofWords (token : List Char) (direction : Direction) :
    List (List Char) → Except PrototypeError Param
  | [] => .error (.noParamType (String.ofList token))
  | word :: rest =>
    match ShaderTy.ofText? word with
    | none | some .void => .error (.unknownParamType (String.ofList word))
    | some type =>
      match rest with
      | [] => .ok ⟨"", type, direction⟩
      | [name] => .ok ⟨String.ofList name, type, direction⟩
      | _ => .error (.trailingWords (String.ofList token))

def parse (token : List Char) : Except PrototypeError Param :=
  match Text.words token with
  | [] => .error (.noParamType (String.ofList token))
  | first :: rest =>
    match Direction.ofText? first with
    | some direction => ofWords token direction rest
    | none => ofWords token .input (first :: rest)

end Param

namespace Prototype

def parseChars (cs : List Char) : Except PrototypeError Prototype :=
  match Text.parenthesised cs with
  | none => .error .noParameterList
  | some (head, inside) =>
    match Text.words head with
    | [type, name] =>
      match ShaderTy.ofText? type with
      | none => .error (.unknownReturnType (String.ofList type))
      | some returns => do
        let params ← (Text.splitParams inside).mapM Param.parse
        .ok ⟨String.ofList name, returns, params⟩
    | _ => .error .notTypeAndName

def parse (text : String) : Except PrototypeError Prototype :=
  parseChars (Text.trim text.toList)

def parseDiagnostic (text : String) (e : PrototypeError) : Diagnostic :=
  .error .unknown ("malformed builtin prototype '" ++ String.ofList (Text.trim text.toList) ++
    "': " ++ e.message)

end Prototype
end FixedIL.Builtin
