import FixedIL.Builtin.Prototype
import FixedIL.LoweringError
import FixedIL.Native.Routine

/-!
The registry of builtins. Declarations that share a name, a return type and a
parameter shape form one builtin: a single untagged implementation, or one for each
numeric domain. Anything else is refused when the registry is made.
-/
namespace FixedIL.Builtin

/-- One implementation as declared. Without a variant it serves both domains. -/
structure Implementation where
  prototype : Prototype
  variant : Option Variant
  symbol : String
  site : String
  routine : Option NativeRoutine

structure Descriptor where
  prototype : Prototype
  variantDependent : Bool
  members : List Nat
  deriving DecidableEq, Repr

structure Registry where
  implementations : List Implementation
  descriptors : List Descriptor
  owners : List Nat

namespace Registry

def empty : Registry := ⟨[], [], []⟩

abbrev Group := List Implementation

def insertGrouped (d : Implementation) : List Group → List Group
  | [] => [[d]]
  | g :: rest =>
    if g.head?.any (fun h => h.prototype.key = d.prototype.key) then (g ++ [d]) :: rest
    else g :: insertGrouped d rest

def groups (decls : List Implementation) : List Group :=
  decls.foldl (fun gs d => insertGrouped d gs) []

def tagged (g : Group) (v : Variant) : List Implementation :=
  g.filter (fun d => d.variant = some v)

def untagged (g : Group) : List Implementation := g.filter (fun d => d.variant.isNone)

def clash? (name variant : String) : List Implementation → Option LoweringError
  | a :: b :: _ => some (.duplicateVariant name variant a.site b.site)
  | _ => none

def untaggedClash? (name : String) (g : Group) : Option LoweringError :=
  match untagged g with
  | [] => none
  | u :: more =>
    clash? name "Any" (u :: more ++ (g.filter (fun d => d.variant.isSome)).take 1)

/-- The member of another group under the same name that has what this group lacks. -/
def counterpart? (all : List Group) (name key : String) (missing : Variant) :
    Option Implementation :=
  all.findSome? fun g =>
    match g with
    | [] => none
    | head :: _ =>
      if head.prototype.name = name ∧ head.prototype.key ≠ key ∧
          (tagged g missing).length = 1 ∧ (tagged g missing.other).length = 0 then
        (tagged g missing).head?
      else none

def lone (all : List Group) (present : Variant) (d : Implementation) : LoweringError :=
  let name := d.prototype.name
  match counterpart? all name d.prototype.key present.other with
  | none => .missingVariant name present.other.name [present.name]
  | some c =>
    match present with
    | .float => .signatureMismatch name d.prototype.text c.prototype.text
    | .fixedPoint => .signatureMismatch name c.prototype.text d.prototype.text

def pairing? (all : List Group) (g : Group) : Option LoweringError :=
  match tagged g .float, tagged g .fixedPoint with
  | [], [] => none
  | [d], [] => some (lone all .float d)
  | [], [d] => some (lone all .fixedPoint d)
  | _, _ => none

def groupError? (all : List Group) (g : Group) : Option LoweringError :=
  match g with
  | [] => none
  | head :: _ =>
    let name := head.prototype.name
    untaggedClash? name g <|>
    clash? name Variant.float.name (tagged g .float) <|>
    clash? name Variant.fixedPoint.name (tagged g .fixedPoint) <|>
    pairing? all g

def addGroup (r : Registry) : Group → Registry
  | [] => r
  | head :: rest =>
    let g := head :: rest
    let first := r.implementations.length
    let descriptor : Descriptor :=
      ⟨head.prototype, g.any (fun d => d.variant.isSome), List.range' first g.length⟩
    ⟨r.implementations ++ g, r.descriptors ++ [descriptor],
      r.owners ++ List.replicate g.length r.descriptors.length⟩

/-- The first invalid group decides the error. -/
def create (decls : List Implementation) : Except LoweringError Registry :=
  let gs := groups decls
  match gs.findSome? (groupError? gs) with
  | some e => .error e
  | none => .ok (gs.foldl addGroup empty)

def find? (r : Registry) (name : String) (args : List ShaderTy) : Option Descriptor :=
  r.descriptors.find? (fun d => d.prototype.name = name && d.prototype.paramTypes = args)

def members (r : Registry) (d : Descriptor) : List Implementation :=
  d.members.filterMap (fun k => r.implementations[k]?)

def implementationFor? (r : Registry) (d : Descriptor) (v : Variant) : Option Implementation :=
  (r.members d).find? (fun m => m.variant = some v) <|>
  (r.members d).find? (fun m => m.variant.isNone)

structure SymbolHit where
  descriptor : Descriptor
  implementation : Implementation

def findSymbol? (r : Registry) (symbol : String) : Option SymbolHit := do
  let k ← r.implementations.findIdx? (fun m => m.symbol = symbol)
  let m ← r.implementations[k]?
  let owner ← r.owners[k]?
  let d ← r.descriptors[owner]?
  some ⟨d, m⟩

end Registry

inductive CallError where
  | unknownFunction (name : String)
  | arity (name : String) (expected found : Nat)
  | argType (name : String) (param : Param) (found : ShaderTy)
  deriving DecidableEq, Repr

def quoted (s : String) : String := "\x60" ++ s ++ "\x60"

def CallError.message : CallError → String
  | .unknownFunction name => "unknown builtin function: " ++ name
  | .arity name expected found =>
    "function " ++ quoted name ++ " expects " ++ toString expected ++ " arguments, got " ++
      toString found
  | .argType name param found =>
    "function " ++ quoted name ++ " parameter " ++ quoted param.name ++ " expects " ++
      (if param.type.isVector && !found.isVector then
        "vector type " ++ quoted param.type.name ++ ", got scalar " ++ quoted found.name
      else if !param.type.isVector && found.isVector then
        "scalar type " ++ quoted param.type.name ++ ", got vector " ++ quoted found.name
      else "type " ++ quoted param.type.name ++ ", got " ++ quoted found.name)

def CallError.diagnostic (e : CallError) : Diagnostic := .error .unknown e.message

namespace Registry

/-- The scan stops at a builtin of the name that takes as many arguments. Until then it keeps the
first one of the name. -/
def candidateAmong? (name : String) (arity : Nat) (kept : Option Descriptor) :
    List Descriptor → Option Descriptor
  | [] => kept
  | d :: rest =>
    if d.prototype.name ≠ name then candidateAmong? name arity kept rest
    else if d.prototype.params.length = arity then some d
    else candidateAmong? name arity (kept <|> some d) rest

def candidate? (r : Registry) (name : String) (arity : Nat) : Option Descriptor :=
  candidateAmong? name arity none r.descriptors

def checkCall (r : Registry) (name : String) (args : List ShaderTy) : Except CallError ShaderTy :=
  match r.find? name args with
  | some d => .ok d.prototype.returns
  | none =>
    match r.candidate? name args.length with
    | none => .error (.unknownFunction name)
    | some d =>
      let params := d.prototype.params
      if params.length ≠ args.length then .error (.arity name params.length args.length)
      else
        match (params.zip args).find? (fun (p, a) => p.type ≠ a) with
        | some (p, a) => .error (.argType name p a)
        | none => .ok d.prototype.returns

end Registry
end FixedIL.Builtin
