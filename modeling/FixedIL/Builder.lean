import FixedIL.Emission

/-!
Building a program function by function. Code goes to the insertion point; fresh
temporaries belong to the current function, which changes when a function is started,
continued, or given a block while another one is current.
-/
namespace FixedIL

structure InsertPoint where
  function : Nat
  block : Nat
  deriving DecidableEq, Repr

structure Builder where
  program : Program
  current : Option Nat
  point : Option InsertPoint
  nextTemp : TempId
  loc : Loc
  deriving DecidableEq, Repr

namespace Builder

def start : Builder := ⟨default, none, none, 0, .unknown⟩

def function (b : Builder) (f : Nat) : Function := (b.program.functions[f]?).getD default

def modifyFunction (b : Builder) (f : Nat) (change : Function → Function) : Builder :=
  { b with program := { b.program with functions := b.program.functions.modify f change } }

def addExtern (b : Builder) (name : String) (sig : Signature) : Builder :=
  { b with program := { b.program with externs := b.program.externs ++ [⟨name, sig⟩] } }

def startFunction (b : Builder) (name : String) (sig : Signature) : Nat × Builder :=
  let f := b.program.functions.length
  (f, { b with
    program := { b.program with functions := b.program.functions ++ [.blank name sig] }
    current := some f
    point := none
    nextTemp := 0 })

/-- Temporaries go on above those that the function defines. -/
def continueFunction (b : Builder) (f : Nat) : Builder :=
  { b with current := some f, point := none, nextTemp := (b.function f).nextTemp }

def numberUp (next : TempId) : List Ty → List Temp
  | [] => []
  | t :: rest => ⟨next, t⟩ :: numberUp (next + 1) rest

def createBlock (b : Builder) (f : Nat) (label : String) (types : List Ty) :
    List Temp × Builder :=
  let b := if b.current = some f then b else b.continueFunction f
  let params := numberUp b.nextTemp types
  let b := b.modifyFunction f fun g => { g with blocks := g.blocks ++ [⟨label, params, []⟩] }
  (params, { b with nextTemp := b.nextTemp + types.length.toUInt32 })

def addEntryBlock (b : Builder) (f : Nat) (label : String) : List Temp × Builder :=
  b.createBlock f label ((b.function f).sig.params.map Slot.type)

def setInsertPoint (b : Builder) (p : InsertPoint) : Builder := { b with point := some p }

def appendCode (b : Builder) (code : List Instr) : Builder :=
  match b.point with
  | none => b
  | some p =>
    b.modifyFunction p.function fun g =>
      { g with blocks := g.blocks.modify p.block fun bb => { bb with instrs := bb.instrs ++ code } }

def emitIn {α : Type} (b : Builder) (f : Nat) (e : Emit α) : α × Builder :=
  let (a, s) := e.run ⟨b.nextTemp, b.loc, (b.function f).slots, []⟩
  let b := b.modifyFunction f fun g => { g with slots := s.slots }
  (a, { b.appendCode s.code with nextTemp := s.nextTemp, loc := s.loc })

def emit {α : Type} (b : Builder) (e : Emit α) : α × Builder :=
  b.emitIn ((b.point.map InsertPoint.function).getD 0) e

end Builder
end FixedIL
