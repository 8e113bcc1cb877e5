import FixedIL.Convention.Target
import FixedIL.Diagnostic
import FixedIL.Signature

/-!
Where results travel. Several results of one type are packed into return registers as
long as they fit; otherwise the caller passes a buffer and the callee fills it.
-/
namespace FixedIL

structure ReturnLocation where
  register : RegisterClass
  index : Nat
  offset : Nat
  deriving DecidableEq, Repr

inductive Passing where
  | registers (locations : List ReturnLocation)
  | buffer (addressInRegister : Bool)
  deriving DecidableEq, Repr

structure ReturnPlan where
  types : List Ty
  elementSize : Nat
  passing : Passing
  deriving DecidableEq, Repr

namespace ReturnPlan

def usesBuffer (p : ReturnPlan) : Bool :=
  match p.passing with
  | .buffer _ => true
  | .registers _ => false

def locations (p : ReturnPlan) : List ReturnLocation :=
  match p.passing with
  | .registers ls => ls
  | .buffer _ => []

def addressInRegister (p : ReturnPlan) : Bool :=
  match p.passing with
  | .buffer b => b
  | .registers _ => false

def bufferSize (p : ReturnPlan) : Nat :=
  if p.usesBuffer then p.types.length * p.elementSize else 0

def bufferAlign (p : ReturnPlan) : Nat := if p.usesBuffer then p.elementSize else 0

def offset (p : ReturnPlan) (i : Nat) : Nat := i * p.elementSize

/-- The plan of a call between functions of one program, which never needs a location. -/
def direct (types : List Ty) : ReturnPlan := ⟨types, 0, .registers []⟩

inductive Error where
  | mixed (first other : Ty)
  | voidResult
  deriving DecidableEq, Repr

def Error.message : Error → String
  | .mixed first other =>
    "mixed return types are not supported: " ++ first.name ++ " and " ++ other.name
  | .voidResult => "void cannot be a return value"

def Error.diagnostic (e : Error) : Diagnostic := .error .unknown e.message

def packed (c : RegisterClass) (registerBytes elementSize count : Nat) : List ReturnLocation :=
  (List.range count).map fun i =>
    ⟨c, i * elementSize / registerBytes, i * elementSize % registerBytes⟩

def manyLanes (t : Target) (type : Ty) (count : Nat) : Passing :=
  let inFloatRegs := type.isFloat && t.hasFloatReturnRegs
  if inFloatRegs && t.maxHfaMembers != 0 then
    if count ≤ t.maxHfaMembers then
      .registers ((List.range count).map (⟨.float, ·, 0⟩))
    else .buffer t.sretInRegister
  else if t.maxRegisterReturnBytes < type.size * count then .buffer t.sretInRegister
  else
    let c := if inFloatRegs then RegisterClass.float else .integer
    .registers (packed c (t.registerBytes c) type.size count)

/-- A single value always travels in a register. -/
def passingOf (t : Target) (type : Ty) (count : Nat) : Passing :=
  if count = 1 then
    .registers [⟨if type.isFloat && t.hasFloatReturnRegs then .float else .integer, 0, 0⟩]
  else manyLanes t type count

def classify (types : List Ty) (t : Target) : Except Error ReturnPlan :=
  match types with
  | [] => .ok (direct [])
  | first :: rest =>
    match rest.find? (fun s => s ≠ first) with
    | some other => .error (.mixed first other)
    | none =>
      if first = .void then .error .voidResult
      else .ok ⟨types, first.size, passingOf t first types.length⟩

/-- The signature a caller uses: a buffer is a hidden first parameter, and nothing returns. -/
def legalize (sig : Signature) (t : Target) : Except Error Signature := do
  let plan ← classify sig.returnTypes t
  if plan.usesBuffer then .ok ⟨⟨.ptr, .structReturn⟩ :: sig.params, []⟩ else .ok sig

def locationText (t : Target) (l : ReturnLocation) : String :=
  " " ++ t.registerName l.register l.index ++ "+" ++ toString l.offset

def describe (p : ReturnPlan) (t : Target) : String :=
  if p.usesBuffer then
    "sret " ++ toString p.bufferSize ++ " bytes align " ++ toString p.bufferAlign ++ " via " ++
      t.sretLocation
  else
    "registers" ++ if p.locations.isEmpty then " none"
      else String.join (p.locations.map (locationText t))

end ReturnPlan
end FixedIL
