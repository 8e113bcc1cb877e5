import FixedIL.Proofs.Writing
import FixedIL.Proofs.Reachability

/-!
What a single step keeps, whatever the instruction: every frame belongs to a function of the
program, has its registers, and has code of that function left. Only operations that divide
can find a zero divisor.
-/
namespace FixedIL

structure Ends {α : Type} (divides : Prop) (x : Except RunError α) (Q : α → Prop) : Prop where
  gives : ∀ a, x = .ok a → Q a
  zero : ∀ fn i, x = .error (.trap fn i .divisionByZero) → divides

section Ends

variable {α β : Type} {divides : Prop} {Q : α → Prop} {R : β → Prop} {f : Frame} {i : Instr}
  {cause : TrapCause}

theorem endsOk {a : α} (holds : Q a) : Ends divides (.ok a) Q := by
  refine ⟨fun b same => ?_, fun fn i same => ?_⟩
  · cases same
    exact holds
  · cases same

theorem endsBind {x : Except RunError α} {g : α → Except RunError β} (first : Ends divides x Q)
    (second : ∀ a, Q a → Ends divides (g a) R) : Ends divides (x >>= g) R := by
  cases x with
  | error e => exact ⟨nofun, fun fn i same => first.zero fn i (by cases same; rfl)⟩
  | ok a => exact second a (first.gives a rfl)

theorem endsUnbound {symbol : String} : Ends divides (.error (.noBinding symbol)) Q := by
  refine ⟨fun b same => ?_, fun fn i same => ?_⟩
  · cases same
  · cases same

theorem endsCause (only : cause = .divisionByZero → divides) : Ends divides (f.trap i cause) Q :=
  ⟨nofun, fun fn i same => only (by cases same; rfl)⟩

theorem endsFail {name : String} {place : Option Instr} (other : cause ≠ .divisionByZero) :
    Ends divides (.error (.trap name place cause)) Q :=
  ⟨nofun, fun fn i same => absurd (by cases same; rfl) other⟩

theorem endsTrap (other : cause ≠ .divisionByZero) : Ends divides (f.trap i cause) Q :=
  endsFail other

theorem endsOrTrap {o : Option α} (other : cause ≠ .divisionByZero) (holds : ∀ a, o = some a → Q a) :
    Ends divides (f.orTrap i cause o) Q := by
  cases o with
  | none => exact endsTrap other
  | some a => exact endsOk (holds a rfl)

theorem endsRead {o : Option α} {g : α → Except RunError β} (other : cause ≠ .divisionByZero)
    (next : ∀ a, o = some a → Ends divides (g a) R) : Ends divides (f.orTrap i cause o >>= g) R := by
  cases o with
  | none => exact endsTrap other
  | some a => exact next a rfl

theorem endsIte {c : Prop} [Decidable c] {x y : Except RunError α} (yes : c → Ends divides x Q)
    (no : ¬ c → Ends divides y Q) : Ends divides (if c then x else y) Q := by
  split
  · exact yes ‹_›
  · exact no ‹_›

end Ends

namespace IntOp

theorem evalTotal {op : IntOp} {t : Ty} {a b : Word} (none : op.eval? t a b = none) :
    (Opcode.int op).divides = true := by
  cases op <;> simp_all [eval?, raw?, Opcode.divides]

end IntOp

theorem FloatDomain.computeTotal {d : FloatDomain} {typeOf? : Value → Option Ty} {i : Instr}
    {words : List Word} (stops : d.compute typeOf? i words = .error .divisionByZero) :
    i.op.divides = true := by
  unfold compute at stops
  split at stops <;> try cases stops
  · rename_i op _ _ _ _ is
    split at stops
    · cases stops
    · rename_i none
      rw [is]
      exact IntOp.evalTotal none
  · split at stops <;> cases stops

namespace Frame

structure Runs (p : Program) (P : List Instr → Prop) (f : Frame) (code : List Instr) : Prop where
  fn : f.fn ∈ p.functions
  regs : f.regs.size = f.fn.nextTemp.toNat
  holds : P code
  within : ∀ i ∈ code, ∃ b ∈ f.fn.blocks, i ∈ b.instrs

variable {p : Program} {P : List Instr → Prop} {f f' : Frame} {code : List Instr} {divides : Prop}

theorem assignKeeps {ts : List Temp} {ws : List Word} (assigned : f.assign? ts ws = some f') :
    f'.fn = f.fn ∧ f'.rest = f.rest ∧ f'.regs.size = f.regs.size := by
  induction ts generalizing f ws with
  | nil =>
    cases assigned
    exact ⟨rfl, rfl, rfl⟩
  | cons t rest ih =>
    cases ws with
    | nil =>
      cases assigned
      exact ⟨rfl, rfl, rfl⟩
    | cons w ws =>
      obtain ⟨mid, written, rest⟩ := Option.bind_eq_some_iff.mp assigned
      obtain ⟨fn, left, size⟩ := ih rest
      unfold write? at written
      split at written
      · rename_i room
        cases written
        exact ⟨fn, left, size.trans (Array.size_set room)⟩
      · cases written

theorem Runs.drop {i : Instr} (runs : f.Runs p P (i :: code)) (next : P code) :
    f.Runs p P code :=
  ⟨runs.fn, runs.regs, next, fun j hj => runs.within j (List.mem_cons_of_mem _ hj)⟩

theorem Runs.same (runs : f.Runs p P code) (fn : f'.fn = f.fn)
    (size : f'.regs.size = f.regs.size) : f'.Runs p P code := by
  refine ⟨fn ▸ runs.fn, ?_, runs.holds, fn ▸ runs.within⟩
  rw [size, fn]
  exact runs.regs

theorem enterRuns {fn : Function} {args : List Word} {depth firstBuffer : Nat}
    (member : fn ∈ p.functions) (blocks : ∀ b ∈ fn.blocks, P b.instrs) :
    Ends divides (Frame.enter fn args depth firstBuffer) fun f => f.Runs p P f.rest := by
  unfold enter
  refine endsIte (fun _ => endsFail nofun) fun _ => ?_
  split
  · exact endsFail nofun
  · rename_i entry others isBlocks
    refine endsIte (fun _ => endsFail nofun) fun _ => ?_
    simp only
    split
    · rename_i f assigned
      obtain ⟨same, rest, size⟩ := assignKeeps assigned
      have first : entry ∈ fn.blocks := isBlocks ▸ List.mem_cons_self
      refine endsOk ⟨same ▸ member, ?_, ?_, ?_⟩
      · rw [size, same]
        exact Array.size_replicate
      · rw [rest]
        exact blocks entry first
      · rw [rest, same]
        exact fun i hi => ⟨entry, first, hi⟩
    · exact endsFail nofun

theorem jumpRuns {d : FloatDomain} {i : Instr} {arm : Nat} (runs : f.Runs p P code)
    (blocks : ∀ b ∈ f.fn.blocks, P b.instrs) :
    Ends divides (f.jump d i arm) fun f' => f'.Runs p P f'.rest := by
  unfold jump
  refine endsRead nofun fun label _ => ?_
  refine endsRead nofun fun args _ => ?_
  refine endsRead nofun fun target found => ?_
  have member := List.mem_of_find?_eq_some found
  refine endsIte (fun _ => endsTrap nofun) fun _ => ?_
  refine endsRead nofun fun words _ => ?_
  refine endsOrTrap nofun fun f' assigned => ?_
  obtain ⟨fn, rest, size⟩ := assignKeeps assigned
  have moved : Runs p P { f with label := target.label, rest := target.instrs } target.instrs :=
    ⟨runs.fn, runs.regs, blocks target member, fun i hi => ⟨target, member, hi⟩⟩
  rw [rest]
  exact moved.same fn size

end Frame

structure State.Runs (p : Program) (P : List Instr → Prop) (s : State) : Prop where
  frame : s.frame.Runs p P s.frame.rest
  callers : ∀ f ∈ s.callers, f.Runs p P (f.rest.drop 1)

def Progress.Runs (p : Program) (P : List Instr → Prop) : Progress → Prop
  | .running s => s.Runs p P
  | .finished _ => True

namespace Machine

variable {m : Machine} {P : List Instr → Prop} {s : State} {i : Instr} {after : List Instr}
  {divides : Prop}

theorem deliverRuns {f : Frame} {code : List Instr} {results : List Word}
    (runs : f.Runs m.program P code) :
    Ends divides (State.deliver f i results) fun f' => f'.Runs m.program P code := by
  unfold State.deliver
  refine endsIte (fun _ => endsTrap nofun) fun _ => endsOrTrap nofun fun f' assigned => ?_
  obtain ⟨fn, -, size⟩ := Frame.assignKeeps assigned
  exact runs.same fn size

theorem defineRuns {f : Frame} {code : List Instr} {w : Word} (runs : f.Runs m.program P code) :
    Ends divides (f.define i w) fun f' => f'.Runs m.program P code := by
  unfold Frame.define
  split
  · exact endsTrap nofun
  · rename_i t _ _
    refine endsOrTrap nofun fun f' written => ?_
    have assigned : f.assign? [t] [w] = some f' := by simpa [Frame.assign?] using written
    obtain ⟨fn, -, size⟩ := Frame.assignKeeps assigned
    exact runs.same fn size

theorem externEnds {f : Frame} {e : Extern} {args : List Word} {memory : Memory} :
    Ends divides (m.callExtern f i e args memory) fun _ => True := by
  unfold callExtern
  split
  · exact endsUnbound
  · simp only
    split
    · exact endsOk trivial
    · refine endsRead nofun fun _ _ => ?_
      refine endsRead nofun fun _ _ => ?_
      exact endsOk trivial

theorem callRuns (entries : ∀ f ∈ m.program.functions, ∀ b ∈ f.blocks, P b.instrs)
    (runs : s.Runs m.program P) (head : s.frame.rest = i :: after) (next : P after) :
    Ends divides (m.call s i after) (Progress.Runs m.program P) := by
  have left : s.frame.Runs m.program P after := (head ▸ runs.frame).drop next
  unfold call
  refine endsRead nofun fun args _ => ?_
  split
  · rename_i fn found
    have member := List.mem_of_find?_eq_some found
    refine endsBind (Frame.enterRuns member (entries fn member)) fun callee entered => ?_
    refine endsOk ⟨entered, fun f waiting => ?_⟩
    rcases List.mem_cons.mp waiting with rfl | waiting
    · rw [head]
      exact left
    · exact runs.callers f waiting
  · split
    · exact endsTrap nofun
    · refine endsBind externEnds fun returned _ => ?_
      refine endsBind (deliverRuns left) fun f delivered => ?_
      exact endsOk ⟨⟨delivered.fn, delivered.regs, delivered.holds, delivered.within⟩, runs.callers⟩

theorem retRuns (runs : s.Runs m.program P) :
    Ends divides (m.ret s i) (Progress.Runs m.program P) := by
  unfold ret
  refine endsRead nofun fun results _ => ?_
  split
  · exact endsOk trivial
  · rename_i caller waiting callers
    have own := runs.callers caller (callers ▸ List.mem_cons_self)
    split
    · exact endsTrap nofun
    · rename_i made rest isRest
      rw [isRest] at own
      refine endsBind (deliverRuns own) fun f delivered => ?_
      refine endsOk ⟨⟨delivered.fn, delivered.regs, delivered.holds, delivered.within⟩, ?_⟩
      exact fun f hf => runs.callers f (callers ▸ List.mem_cons_of_mem _ hf)

theorem accessEnds {words : List Word} :
    Ends (i.op.divides = true) (m.access s i words) fun _ => True := by
  unfold access
  split
  · refine endsBind (Q := fun _ => True) ?_ fun _ _ => endsOk trivial
    exact endsIte (fun _ => endsOk trivial) fun _ => endsTrap nofun
  · refine endsBind (Q := fun _ => True) ?_ fun _ _ => ?_
    · exact endsIte (fun _ => endsTrap nofun) fun _ => endsOk trivial
    · refine endsBind (Q := fun _ => True) ?_ fun _ _ => endsOk trivial
      refine endsIte (fun _ => endsOk trivial) fun _ => ?_
      refine endsBind (Q := fun _ => True) ?_ fun _ _ => endsOk trivial
      exact endsOrTrap nofun fun _ _ => trivial
  · refine endsBind (Q := fun _ => True) ?_ fun _ _ => ?_
    · exact endsIte (fun _ => endsTrap nofun) fun _ => endsOk trivial
    · refine endsBind (Q := fun _ => True) ?_ fun _ _ => endsOk trivial
      refine endsIte (fun _ => endsOk trivial) fun _ => ?_
      exact endsOrTrap nofun fun _ _ => trivial
  · split
    · exact endsOk trivial
    · rename_i cause stops
      exact endsCause fun zero => FloatDomain.computeTotal (stops.trans (by rw [zero]))

theorem plainRuns (runs : s.Runs m.program P) (head : s.frame.rest = i :: after) (next : P after) :
    Ends (i.op.divides = true) (m.plain s i after) (Progress.Runs m.program P) := by
  have left : s.frame.Runs m.program P after := (head ▸ runs.frame).drop next
  unfold plain
  refine endsRead nofun fun words _ => ?_
  refine endsBind accessEnds fun ⟨w?, memory⟩ _ => ?_
  have moved (f : Frame) (runs' : f.Runs m.program P after) : Progress.Runs m.program P
      (.running { s with frame := { f with rest := after }, memory := memory }) :=
    ⟨⟨runs'.fn, runs'.regs, runs'.holds, runs'.within⟩, runs.callers⟩
  cases w? with
  | none => exact endsOk (moved s.frame left)
  | some w => exact endsBind (defineRuns left) fun f defined => endsOk (moved f defined)

theorem stepRuns (entries : ∀ f ∈ m.program.functions, ∀ b ∈ f.blocks, P b.instrs)
    (runs : s.Runs m.program P) (head : s.frame.rest = i :: after) (next : P after) :
    Ends (i.op.divides = true) (m.step s i after) (Progress.Runs m.program P) := by
  have blocks := entries s.frame.fn runs.frame.fn
  unfold step
  split
  · exact callRuns entries runs head next
  · exact retRuns runs
  · exact endsBind (Frame.jumpRuns runs.frame blocks) fun f jumped =>
      endsOk ⟨jumped, runs.callers⟩
  · refine endsRead nofun fun c _ => ?_
    exact endsBind (Frame.jumpRuns runs.frame blocks) fun f jumped =>
      endsOk ⟨jumped, runs.callers⟩
  · exact plainRuns runs head next

theorem reachesRuns {n : Nat} {final : State} (path : m.Reaches n s final)
    (runs : s.Runs m.program fun _ => True) : final.Runs m.program fun _ => True := by
  induction path with
  | here s => exact runs
  | step head stepped rest ih =>
    exact ih ((stepRuns (fun _ _ _ _ => trivial) runs head trivial).gives _ stepped)

theorem startRuns (entries : ∀ f ∈ m.program.functions, ∀ b ∈ f.blocks, P b.instrs)
    {name : String} {args : List Word} :
    Ends False (m.enter name args) fun s => s.Runs m.program P := by
  unfold enter
  split
  · refine ⟨fun s same => ?_, fun fn i same => ?_⟩
    · cases same
    · cases same
  · rename_i fn found
    have member := List.mem_of_find?_eq_some found
    refine endsBind (Frame.enterRuns member (entries fn member)) fun f entered => endsOk ?_
    refine ⟨entered, fun caller waiting => ?_⟩
    cases waiting

end Machine
end FixedIL
