import FixedIL.Machine.Compute
import FixedIL.Machine.State

/-!
One step of a machine: the next instruction of the frame at work is carried out. Calls
put a frame on the stack, returns take it off and hand the results to the waiting call.
-/
namespace FixedIL

def maxCallDepth : Nat := 256

namespace Frame

def trap {α : Type} (f : Frame) (i : Instr) (cause : TrapCause) : Except RunError α :=
  .error (.trap f.fn.name (some i) cause)

def orTrap {α : Type} (f : Frame) (i : Instr) (cause : TrapCause) : Option α → Except RunError α
  | some a => .ok a
  | none => f.trap i cause

def enter (fn : Function) (args : List Word) (depth firstBuffer : Nat) : Except RunError Frame :=
  if maxCallDepth < depth then .error (.trap fn.name none .callDepth)
  else
    match fn.blocks with
    | [] => .error (.trap fn.name none .noBody)
    | entry :: _ =>
      if args.length ≠ entry.params.length then
        .error (.trap fn.name none (.argumentCount entry.params.length))
      else
        let f : Frame := ⟨fn, entry.label, entry.instrs, blankRegs fn, firstBuffer⟩
        match f.assign? entry.params args with
        | some f => .ok f
        | none => .error (.trap fn.name none .malformed)

/-- All arguments are read before the first parameter is written. -/
def jump (d : FloatDomain) (f : Frame) (i : Instr) (arm : Nat) : Except RunError Frame := do
  let label ← f.orTrap i .malformed i.labels[arm]?
  let args ← f.orTrap i .malformed i.branchArgs[arm]?
  let target ← f.orTrap i (.unknownLabel label) (f.fn.blockNamed? label)
  if target.params.length ≠ args.length then f.trap i .branchArguments
  else
    let words ← f.orTrap i .malformed (f.values? d args)
    let f' : Frame := { f with label := target.label, rest := target.instrs }
    f.orTrap i .malformed (f'.assign? target.params words)

def define (f : Frame) (i : Instr) (w : Word) : Except RunError Frame :=
  match i.results with
  | [] => f.trap i .malformed
  | t :: _ => f.orTrap i .malformed (f.write? t.id w)

end Frame

def slotSizes (fn : Function) : List Nat := fn.slots.map (fun s => s.size.toNat)

namespace State

def deliver (f : Frame) (i : Instr) (results : List Word) : Except RunError Frame :=
  if results.length ≠ i.results.length then f.trap i .returnedCount
  else f.orTrap i .malformed (f.assign? i.results results)

end State

namespace Machine

-- Nothing is defined by native code for a routine that reads more cells than are declared, nor for
-- results of more bytes than these. Zeros are read in both cases, and no trap tells of them.
def resultBytes : Nat := 64

def loadResults (d : FloatDomain) : List Ty → List UInt8 → List Word
  | [], _ => []
  | t :: rest, bytes =>
    d.load t (bytes.take (d.sizeOf t)) :: loadResults d rest (bytes.drop (d.sizeOf t))

def padded (bytes : List UInt8) : List UInt8 :=
  bytes ++ List.replicate (resultBytes - bytes.length) 0

/-- Arguments as cells, typed by the declaration; the buffer address is none of them. -/
def cells (d : FloatDomain) (params : List Slot) (args : List Word) : List Word :=
  let hidden := (params.findIdx? (fun p => p.purpose = .structReturn))
  ((params.zip args).zipIdx.filter (fun a => some a.2 ≠ hidden)).map
    fun ((p, w), _) => d.cell p.type w

def callExtern (m : Machine) (f : Frame) (i : Instr) (e : Extern) (args : List Word)
    (memory : Memory) : Except RunError (List Word × Memory) :=
  match m.registry.bind (m.domain.routine? · e.name) with
  | none => .error (.noBinding e.name)
  | some routine =>
    let bytes := routine (cells m.domain e.sig.params args)
    match e.sig.structReturnIndex? with
    | none => .ok (loadResults m.domain e.sig.returnTypes (padded bytes), memory)
    | some k => do
      let address ← f.orTrap i .malformed args[k]?
      let memory ← f.orTrap i .wildAccess (memory.write? address bytes)
      .ok ([], memory)

def call (m : Machine) (s : State) (i : Instr) (after : List Instr) : Except RunError Progress :=
  do
    let f := s.frame
    let args ← f.orTrap i .malformed (f.values? m.domain i.operands)
    match m.program.functionNamed? i.callee with
    | some fn =>
      let callee ← Frame.enter fn args (s.callers.length + 1) s.memory.buffers.length
      .ok (.running ⟨callee, f :: s.callers, s.memory.allocate (slotSizes fn)⟩)
    | none =>
      match m.program.externNamed? i.callee with
      | none => f.trap i (.unknownCallee i.callee)
      | some e => do
        let (results, memory) ← m.callExtern f i e args s.memory
        let f ← State.deliver f i results
        .ok (.running { s with frame := { f with rest := after }, memory := memory })

def ret (m : Machine) (s : State) (i : Instr) : Except RunError Progress := do
  let f := s.frame
  let results ← f.orTrap i .malformed (f.values? m.domain i.operands)
  match s.callers with
  | [] => .ok (.finished results)
  | caller :: waiting =>
    match caller.rest with
    | [] => f.trap i .malformed
    | made :: after =>
      let caller ← State.deliver caller made results
      .ok (.running ⟨{ caller with rest := after }, waiting, s.memory.release f.firstBuffer⟩)

/-- An address that is zero names nothing, whatever the offset. -/
def target (f : Frame) (i : Instr) (base offset : Word) : Except RunError Word :=
  if base = 0 then f.trap i .nullDereference else .ok (base + offset)

def loadFrom (d : FloatDomain) (f : Frame) (i : Instr) (memory : Memory) (address : Word) :
    Except RunError Word :=
  let n := d.sizeOf i.type
  if n = 0 then .ok (d.load i.type [])
  else do
    let bytes ← f.orTrap i .wildAccess (memory.read? address n)
    .ok (d.load i.type bytes)

def storeTo (d : FloatDomain) (f : Frame) (i : Instr) (memory : Memory) (address w : Word) :
    Except RunError Memory :=
  let bytes := d.store i.type w
  if bytes.isEmpty then .ok memory else f.orTrap i .wildAccess (memory.write? address bytes)

def slotAddress (f : Frame) (i : Instr) (slot offset : Word) : Except RunError Word :=
  let k := slot.toInt64.toInt
  if 0 ≤ k ∧ k < f.fn.slots.length then
    .ok (Memory.address (f.firstBuffer + k.toNat) offset.toInt64)
  else f.trap i .frameSlot

def access (m : Machine) (s : State) (i : Instr) (words : List Word) :
    Except RunError (Option Word × Memory) :=
  match i.op, words with
  | .stackaddr, slot :: offset :: _ => do
    .ok (some (← slotAddress s.frame i slot offset), s.memory)
  | .load, base :: offset :: _ => do
    let address ← target s.frame i base offset
    .ok (some (← loadFrom m.domain s.frame i s.memory address), s.memory)
  | .store, base :: w :: offset :: _ => do
    let address ← target s.frame i base offset
    .ok (none, ← storeTo m.domain s.frame i s.memory address w)
  | _, _ => do
    match m.domain.compute s.frame.typeOf? i words with
    | .ok w => .ok (some w, s.memory)
    | .error cause => s.frame.trap i cause

/-- Anything but control: words in, at most one word out. Operands beyond those that the
operation reads do not count. -/
def plain (m : Machine) (s : State) (i : Instr) (after : List Instr) :
    Except RunError Progress := do
  let f := s.frame
  let words ← f.orTrap i .malformed (f.values? m.domain (i.operands.take i.op.minOperands))
  let (w?, memory) ← m.access s i words
  let f ← match w? with
    | none => .ok f
    | some w => f.define i w
  .ok (.running { s with frame := { f with rest := after }, memory := memory })

def step (m : Machine) (s : State) (i : Instr) (after : List Instr) : Except RunError Progress :=
  match i.op with
  | .call => m.call s i after
  | .ret => m.ret s i
  | .br => do .ok (.running { s with frame := ← s.frame.jump m.domain i 0 })
  | .cbr => do
    let f := s.frame
    let c ← f.orTrap i .malformed (i.operands.head?.bind (f.value? m.domain))
    .ok (.running { s with frame := ← f.jump m.domain i (if c.isTrue then 0 else 1) })
  | _ => m.plain s i after

end Machine
end FixedIL
