import FixedIL.Emission
import FixedIL.LoweringError

/-!
What a pass over one function knows and remembers: what each temporary, label, frame
slot and callee has become, the externs declared so far, and the code being written.
The first entry for a key stays. State is kept when the pass fails.
-/
namespace FixedIL

structure CallTarget where
  symbol : String
  sig : Signature
  plan : ReturnPlan
  deriving DecidableEq, Repr

structure PassState where
  values : List (TempId × Value)
  labels : List (String × String)
  slots : List (UInt32 × UInt32)
  callTargets : List (String × CallTarget)
  externs : List Extern
  emission : Emission
  deriving DecidableEq, Repr

structure Encoding where
  mapTy : Ty → Ty
  mapLiteral : Float → Value

structure Site where
  program : Program
  function : Function
  encoding : Encoding

abbrev PassM := ExceptT LoweringError (StateM PassState)

def insertNew {α β : Type} [BEq α] (key : α) (value : β) (entries : List (α × β)) :
    List (α × β) :=
  if (entries.lookup key).isSome then entries else (key, value) :: entries

theorem lookupInsertNew {α β : Type} [BEq α] [LawfulBEq α] (key : α) (value : β)
    (entries : List (α × β)) (other : α) :
    (insertNew key value entries).lookup other =
      if other == key then some ((entries.lookup key).getD value) else entries.lookup other := by
  unfold insertNew
  by_cases h : other == key
  · have : other = key := eq_of_beq h
    subst this
    cases e : entries.lookup other <;> simp [e]
  · cases e : entries.lookup key <;> simp [List.lookup_cons, h]

namespace PassState

def blank (emission : Emission) : PassState := ⟨[], [], [], [], [], emission⟩

def mapValue (s : PassState) (id : TempId) (v : Value) : PassState :=
  { s with values := insertNew id v s.values }

def isMapped (s : PassState) (id : TempId) : Bool := (s.values.lookup id).isSome

def mapLabel (s : PassState) (old new : String) : PassState :=
  { s with labels := insertNew old new s.labels }

def mapSlot (s : PassState) (old new : UInt32) : PassState :=
  { s with slots := insertNew old new s.slots }

def operand (s : PassState) (t : Encoding) : Value → Value
  | .temp id => (s.values.lookup id).getD (.temp id)
  | .float x => t.mapLiteral x
  | v => v

def operands (s : PassState) (t : Encoding) (vs : List Value) : List Value :=
  vs.map (s.operand t)

end PassState

namespace Site

def signature? (site : Site) (name : String) : Option Signature :=
  (site.program.functionNamed? name).map (·.sig.mapTypes site.encoding.mapTy)

def typeOf? (site : Site) : Value → Option Ty
  | .temp id => (site.function.temps.find? (fun t => t.id = id)).map Temp.type
  | .float _ => some .f32
  | .null => some .ptr
  | _ => none

end Site

namespace PassM

def fail {α : Type} (e : LoweringError) : PassM α := throw e

def malformed {α : Type} (site : Site) (i : Instr) (why : Malformed) : PassM α :=
  fail (.malformed site.function.name i why)

def unsupported {α : Type} (site : Site) (i : Instr) : PassM α :=
  fail (.unsupported site.function.name i)

def emit {α : Type} (e : Emit α) : PassM α :=
  modifyGet fun s =>
    let (a, emission) := e.run s.emission
    (a, { s with emission := emission })

def emit' (e : Emit Value) : PassM Unit := do
  let _ ← emit e

def mapValue (id : TempId) (v : Value) : PassM Unit := modify (·.mapValue id v)

def keepTemps (ids : List TempId) : PassM Unit :=
  modify fun s => ids.foldl (fun s id => s.mapValue id (.temp id)) s

def operands (site : Site) (vs : List Value) : PassM (List Value) := do
  return (← get).operands site.encoding vs

def operand (site : Site) (v : Value) : PassM Value := do
  return (← get).operand site.encoding v

def redefine (i : Instr) (t : Temp) (op : Opcode) (type : Ty) (operands : List Value) :
    PassM Value := do
  emit (Emit.append { Instr.blank op with
    type := type, operands := operands, results := [⟨t.id, type⟩], loc := i.loc })
  mapValue t.id (.temp t.id)
  return .temp t.id

def targetLabel (site : Site) (i : Instr) (label : String) : PassM String := do
  match (← get).labels.lookup label with
  | some new => return new
  | none => malformed site i (.unknownTarget label)

def slotFor? (s : PassState) (v : Value) : Option UInt32 := do
  let n ← v.intLiteral?
  if 0 ≤ n then s.slots.lookup n.toUInt64.toUInt32 else none

def slotOperands (site : Site) (i : Instr) (values : List Value) : PassM (List Value) := do
  let s ← get
  match i.operands.head?.bind (slotFor? s) with
  | some new => return .int new.toUInt64.toInt64 :: values.drop 1
  | none => malformed site i .notAFrameSlot

def copy (site : Site) (i : Instr) : PassM Unit := do
  let values ← operands site i.operands
  let branchArgs ← i.branchArgs.mapM (operands site)
  let labels ← i.labels.mapM (targetLabel site i)
  let values ← if i.op = .stackaddr then slotOperands site i values else pure values
  keepTemps (i.results.map Temp.id)
  emit (Emit.append { i with operands := values, branchArgs := branchArgs, labels := labels })

end PassM
end FixedIL
