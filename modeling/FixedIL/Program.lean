import FixedIL.Diagnostic
import FixedIL.Opcode
import FixedIL.Signature
import FixedIL.Value

/-!
Programs: externs and functions, functions as labelled blocks of instructions over
numbered temporaries. Any shape can be written down; `WellFormed` says which make sense.
-/
namespace FixedIL

structure Temp where
  id : TempId
  type : Ty
  deriving DecidableEq, Repr

structure Instr where
  op : Opcode
  type : Ty
  results : List Temp
  operands : List Value
  callee : String
  labels : List String
  branchArgs : List (List Value)
  loc : Loc
  deriving DecidableEq, Repr

namespace Instr

def blank (op : Opcode) : Instr := ⟨op, .void, [], [], "", [], [], .unknown⟩

instance : Inhabited Instr := ⟨blank .iconst⟩

def isTerminator (i : Instr) : Bool := i.op.isTerminator

end Instr

structure Block where
  label : String
  params : List Temp
  instrs : List Instr
  deriving DecidableEq, Repr

namespace Block

def terminated (b : Block) : Bool := b.instrs.any Instr.isTerminator

def temps (b : Block) : List Temp := b.params ++ b.instrs.flatMap Instr.results

end Block

structure FrameSlot where
  size : UInt32
  align : UInt32
  deriving DecidableEq, Repr

structure Function where
  name : String
  sig : Signature
  blocks : List Block
  slots : List FrameSlot
  valueNames : List String
  deriving DecidableEq, Repr

namespace Function

def blank (name : String) (sig : Signature) : Function := ⟨name, sig, [], [], []⟩

instance : Inhabited Function := ⟨blank "" default⟩

def blockIndex? (f : Function) (label : String) : Option Nat :=
  f.blocks.findIdx? (fun b => b.label = label)

def blockNamed? (f : Function) (label : String) : Option Block :=
  f.blocks.find? (fun b => b.label = label)

def temps (f : Function) : List Temp := f.blocks.flatMap Block.temps

/-- The least id above every temporary and every named value; ids are 32 bits wide. -/
def nextTemp (f : Function) : TempId :=
  f.temps.foldl (fun next t => max next (t.id + 1)) f.valueNames.length.toUInt32

end Function

structure Extern where
  name : String
  sig : Signature
  deriving DecidableEq, Repr

structure Program where
  externs : List Extern
  functions : List Function
  deriving DecidableEq, Repr

namespace Program

instance : Inhabited Program := ⟨⟨[], []⟩⟩

def functionNamed? (p : Program) (name : String) : Option Function :=
  p.functions.find? (fun f => f.name = name)

def externNamed? (p : Program) (name : String) : Option Extern :=
  p.externs.find? (fun e => e.name = name)

/-- A call means the function of that name, else the extern. -/
def calleeSig? (p : Program) (name : String) : Option Signature :=
  match p.functionNamed? name with
  | some f => some f.sig
  | none => (p.externNamed? name).map Extern.sig

end Program
end FixedIL
