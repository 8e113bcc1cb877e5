import FixedIL.Convention.ReturnPlan
import FixedIL.Program

/-!
Writing instructions one after another. The state holds the next free temporary, the
place that new instructions are given, the frame slots of the function being written
and the code so far. Temporaries are handed out in order, past every id seen.
-/
namespace FixedIL

structure Emission where
  nextTemp : TempId
  loc : Loc
  slots : List FrameSlot
  code : List Instr
  deriving DecidableEq, Repr

abbrev Emit := StateM Emission

namespace Emission

def fresh (nextTemp : TempId) : Emission := ⟨nextTemp, .unknown, [], []⟩

def skipTemps (e : Emission) (ids : List TempId) : Emission :=
  { e with nextTemp := ids.foldl (fun next id => if next ≤ id then id + 1 else next) e.nextTemp }

/-- An instruction without a line takes the current place. -/
def placed (e : Emission) (i : Instr) : Instr := if i.loc.hasLine then i else { i with loc := e.loc }

def push (e : Emission) (i : Instr) : Emission :=
  { e.skipTemps (i.results.map Temp.id) with code := e.code ++ [e.placed i] }

theorem pushCode (e : Emission) (i : Instr) : (e.push i).code = e.code ++ [e.placed i] := rfl

end Emission

namespace Emit

def reserve : Emit TempId := modifyGet fun e => (e.nextTemp, { e with nextTemp := e.nextTemp + 1 })

def reserveBelow (id : TempId) : Emit Unit :=
  modify fun e => if e.nextTemp < id then { e with nextTemp := id } else e

def setLoc (loc : Loc) : Emit Unit := modify fun e => { e with loc := loc }

def append (i : Instr) : Emit Unit := modify fun e => e.push i

def addSlot (size align : UInt32) : Emit Nat :=
  modifyGet fun e => (e.slots.length, { e with slots := e.slots ++ [⟨size, align⟩] })

def define (op : Opcode) (type : Ty) (operands : List Value) (id : TempId) : Emit Value := do
  append { Instr.blank op with type := type, operands := operands, results := [⟨id, type⟩] }
  return .temp id

def emit (op : Opcode) (type : Ty) (operands : List Value) : Emit Value := do
  define op type operands (← reserve)

def iconst (type : Ty) (n : Int64) : Emit Value := emit .iconst type [.int n]

def fconst (type : Ty) (x : Float) : Emit Value := emit .fconst type [.float x]

def select (type : Ty) (c a b : Value) : Emit Value := emit .select type [c, a, b]

def stackAddr (slot : Nat) (offset : Int64) : Emit Value :=
  emit .stackaddr .ptr [.int (Int64.ofNat slot), .int offset]

def load (type : Ty) (address : Value) (offset : Int64) : Emit Value :=
  emit .load type [address, .int offset]

def store (type : Ty) (address value : Value) (offset : Int64) : Emit Unit :=
  append { Instr.blank .store with type := type, operands := [address, value, .int offset] }

def callType : List Ty → Ty
  | [type] => type
  | _ => .void

def callDefining (callee : String) (results : List Temp) (args : List Value) : Emit Unit :=
  append { Instr.blank .call with
    type := callType (results.map Temp.type), results := results, operands := args,
    callee := callee }

def freshTemps (types : List Ty) : Emit (List Temp) :=
  types.mapM fun type => return ⟨← reserve, type⟩

def call (callee : String) (types : List Ty) (args : List Value) : Emit (List Value) := do
  let results ← freshTemps types
  callDefining callee results args
  return results.map fun r => .temp r.id

def br (label : String) (args : List Value) : Emit Unit :=
  append { Instr.blank .br with labels := [label], branchArgs := [args] }

def cbr (c : Value) (thenLabel : String) (thenArgs : List Value) (elseLabel : String)
    (elseArgs : List Value) : Emit Unit :=
  append { Instr.blank .cbr with
    operands := [c], labels := [thenLabel, elseLabel], branchArgs := [thenArgs, elseArgs] }

def ret (values : List Value) : Emit Unit := append { Instr.blank .ret with operands := values }

def idOr (wanted : Option TempId) : Emit TempId :=
  match wanted with
  | some id => return id
  | none => reserve

def numbered (types : List Ty) (ids : List TempId) : Emit (List Temp) :=
  types.zipIdx.mapM fun (type, k) => return ⟨← idOr ids[k]?, type⟩

def loadAll (plan : ReturnPlan) (buffer : Value) (ids : List TempId) : Emit (List Value) :=
  plan.types.zipIdx.mapM fun (type, k) => do
    let id ← idOr ids[k]?
    define .load type [buffer, .int (Int64.ofNat (plan.offset k))] id

/-- A call by a return plan: the results come back in registers, or through a new frame
slot whose address goes ahead of the arguments. -/
def callByPlan (callee : String) (plan : ReturnPlan) (args : List Value) (ids : List TempId) :
    Emit (List Value) := do
  if plan.usesBuffer then
    let slot ← addSlot plan.bufferSize.toUInt32 plan.bufferAlign.toUInt32
    let buffer ← stackAddr slot 0
    callDefining callee [] (buffer :: args)
    loadAll plan buffer ids
  else
    let results ← numbered plan.types ids
    callDefining callee results args
    return results.map fun r => .temp r.id

end Emit
end FixedIL
