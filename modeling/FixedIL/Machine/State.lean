import FixedIL.Machine.FloatDomain
import FixedIL.Machine.Memory
import FixedIL.Machine.Trap

/-!
The state of a run: the frame at work, the frames that wait for a call to return, and
memory. A waiting frame still has the call at the head of what is left to do.
-/
namespace FixedIL

structure Frame where
  fn : Function
  label : String
  rest : List Instr
  regs : Array Word
  firstBuffer : Nat
  deriving DecidableEq, Repr

namespace Frame

def blankRegs (fn : Function) : Array Word := Array.replicate fn.nextTemp.toNat 0

def value? (d : FloatDomain) (f : Frame) : Value → Option Word
  | .temp id => f.regs[id.toNat]?
  | .int n => some (Word.ofInt64 n)
  | .bool b => some (Word.ofBool b)
  | .float x => some (d.literal x)
  | .null => some 0

def values? (d : FloatDomain) (f : Frame) (vs : List Value) : Option (List Word) :=
  vs.mapM (f.value? d)

/-- The type under which a temporary is defined, the last definition if there are several. -/
def tempType (fn : Function) (id : TempId) : Ty :=
  (((fn.temps.filter (fun t => t.id = id)).getLast?).map Temp.type).getD .void

def typeOf? (f : Frame) : Value → Option Ty
  | .temp id => some (tempType f.fn id)
  | _ => none

def write? (f : Frame) (id : TempId) (w : Word) : Option Frame :=
  if h : id.toNat < f.regs.size then some { f with regs := f.regs.set id.toNat w h } else none

def assign? (f : Frame) : List Temp → List Word → Option Frame
  | t :: ts, w :: ws => (f.write? t.id w).bind (·.assign? ts ws)
  | _, _ => some f

end Frame

structure State where
  frame : Frame
  callers : List Frame
  memory : Memory
  deriving DecidableEq, Repr

structure Machine where
  program : Program
  registry : Option Builtin.Registry
  domain : FloatDomain

inductive Progress where
  | running (s : State)
  | finished (results : List Word)
  deriving DecidableEq, Repr

end FixedIL
