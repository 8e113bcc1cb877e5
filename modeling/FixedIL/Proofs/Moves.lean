import FixedIL.Proofs.Steps

/-!
The kinds of steps, and what each does: code that goes on in its block, calls into the program
and out of it, returns and branches. Between steps, every waiting frame has the call that the
frame above it was entered for at the head of its code.
-/
namespace FixedIL

section Reads

variable {α β : Type} {f : Frame} {i : Instr} {cause : TrapCause}

theorem boundOk {x : Except RunError α} {g : α → Except RunError β} {b : β}
    (ends : x >>= g = .ok b) : ∃ a, x = .ok a ∧ g a = .ok b := by
  cases x with
  | error e => cases ends
  | ok a => exact ⟨a, rfl, ends⟩

theorem readOk {o : Option α} {a : α} (ends : f.orTrap i cause o = .ok a) : o = some a := by
  cases o with
  | none => cases ends
  | some b =>
    cases ends
    rfl

end Reads

namespace Frame

variable {f f' : Frame} {fn : Function} {args : List Word} {d : FloatDomain} {i : Instr}
  {arm depth firstBuffer : Nat} {p : Program} {P : List Instr → Prop} {code : List Instr}

theorem Runs.sound (runs : f.Runs p P code) (wellFormed : p.WellFormed) (member : i ∈ code) :
    WellFormed.instr? p f.fn f.fn.temps i = none := by
  obtain ⟨b, block, instr⟩ := runs.within i member
  exact WellFormed.instrSound (WellFormed.noViolation wellFormed runs.fn) block instr

theorem Runs.declared (runs : f.Runs p P code) (member : i ∈ code) :
    ∀ t ∈ i.results, t ∈ f.fn.temps := by
  obtain ⟨b, block, instr⟩ := runs.within i member
  exact fun t => Function.memTemps block instr

theorem Runs.once (runs : f.Runs p P code) (wellFormed : p.WellFormed) : f.fn.DefinesOnce :=
  WellFormed.definesOnce (WellFormed.noViolation wellFormed runs.fn)

theorem Runs.inside (runs : f.Runs p P code) (member : i ∈ code) : i ∈ f.fn.code := by
  obtain ⟨b, block, instr⟩ := runs.within i member
  exact List.mem_flatMap.mpr ⟨b, block, instr⟩

theorem writePut {id : TempId} {w : Word} (written : f.write? id w = some f') :
    id.toNat < f.regs.size ∧ f' = f.put id w := by
  have room : id.toNat < f.regs.size := by
    unfold write? at written
    split at written
    · assumption
    · cases written
  exact ⟨room, (Option.some.inj ((writeInside room w).symm.trans written)).symm⟩

theorem assignShape {ts : List Temp} {ws : List Word} (assigned : f.assign? ts ws = some f') :
    f' = { f with regs := f'.regs } := by
  induction ts generalizing f ws with
  | nil =>
    cases assigned
    rfl
  | cons t rest ih =>
    cases ws with
    | nil =>
      cases assigned
      rfl
    | cons w ws =>
      obtain ⟨mid, written, others⟩ := Option.bind_eq_some_iff.mp assigned
      rw [ih others, (writePut written).2]
      rfl

theorem blankZero {k : Nat} {w : Word} (held : (blankRegs fn)[k]? = some w) : w = 0 := by
  obtain ⟨inside, is⟩ := Array.getElem?_eq_some_iff.mp held
  rw [← is]
  exact Array.getElem_replicate _

theorem enterOk (entered : Frame.enter fn args depth firstBuffer = .ok f) :
    ∃ entry rest, fn.blocks = entry :: rest ∧ args.length = entry.params.length ∧
      (⟨fn, entry.label, entry.instrs, blankRegs fn, firstBuffer⟩ : Frame).assign? entry.params args =
        some f := by
  unfold Frame.enter at entered
  split at entered
  · cases entered
  · split at entered
    · cases entered
    · rename_i entry rest blocks
      split at entered
      · cases entered
      · rename_i count
        simp only at entered
        split at entered
        · rename_i f' assigned
          cases entered
          exact ⟨entry, rest, blocks, Decidable.not_not.mp count, assigned⟩
        · cases entered

theorem jumpOk (jumped : f.jump d i arm = .ok f') :
    ∃ label args target words, i.labels[arm]? = some label ∧ i.branchArgs[arm]? = some args ∧
      f.fn.blockNamed? label = some target ∧ target.params.length = args.length ∧
      f.values? d args = some words ∧
      { f with label := target.label, rest := target.instrs }.assign? target.params words =
        some f' := by
  obtain ⟨label, hasLabel, jumped⟩ := boundOk jumped
  obtain ⟨args, hasArgs, jumped⟩ := boundOk jumped
  obtain ⟨target, found, jumped⟩ := boundOk jumped
  split at jumped
  · cases jumped
  · rename_i count
    obtain ⟨words, values, assigned⟩ := boundOk jumped
    exact ⟨label, args, target, words, readOk hasLabel, readOk hasArgs, readOk found,
      Decidable.not_not.mp count, readOk values, readOk assigned⟩

theorem defineOk {w : Word} (defined : f.define i w = .ok f') :
    ∃ t rest, i.results = t :: rest ∧ f.assign? [t] [w] = some f' := by
  unfold Frame.define at defined
  split at defined
  · cases defined
  · rename_i t rest results
    exact ⟨t, rest, results, by simpa [assign?] using readOk defined⟩

theorem deliverOk {results : List Word} (delivered : State.deliver f i results = .ok f') :
    results.length = i.results.length ∧ f.assign? i.results results = some f' := by
  unfold State.deliver at delivered
  split at delivered
  · cases delivered
  · rename_i count
    exact ⟨Decidable.not_not.mp count, readOk delivered⟩

end Frame

theorem Opcode.plainShape {op : Opcode} (plain : op.category ≠ .call ∧ op.category ≠ .control) :
    op.maxOperands? = some op.minOperands ∧ op.isTerminator = false := by
  revert plain
  cases op <;> simp [category, maxOperands?, isTerminator]

namespace Machine

inductive Moves (m : Machine) (s : State) (i : Instr) (after : List Instr) : State → Prop where
  | keep {words : List Word} {memory : Memory}
      (op : i.op.category ≠ .call ∧ i.op.category ≠ .control)
      (access : m.access s i words = .ok (none, memory)) :
      Moves m s i after { s with frame := { s.frame with rest := after }, memory := memory }
  | define {words : List Word} {w : Word} {memory : Memory} {t : Temp} {rest : List Temp} {f : Frame}
      (op : i.op.category ≠ .call ∧ i.op.category ≠ .control)
      (values : s.frame.values? m.domain (i.operands.take i.op.minOperands) = some words)
      (access : m.access s i words = .ok (some w, memory)) (results : i.results = t :: rest)
      (assigned : s.frame.assign? [t] [w] = some f) :
      Moves m s i after { s with frame := { f with rest := after }, memory := memory }
  | enter {args : List Word} {fn : Function} {callee : Frame} (op : i.op = .call)
      (values : s.frame.values? m.domain i.operands = some args)
      (named : m.program.functionNamed? i.callee = some fn)
      (entered : Frame.enter fn args (s.callers.length + 1) s.memory.buffers.length = .ok callee) :
      Moves m s i after ⟨callee, s.frame :: s.callers, s.memory.allocate (slotSizes fn)⟩
  | native {args results : List Word} {e : Extern} {memory : Memory} {f : Frame} (op : i.op = .call)
      (unnamed : m.program.functionNamed? i.callee = none)
      (named : m.program.externNamed? i.callee = some e)
      (given : m.callExtern s.frame i e args s.memory = .ok (results, memory))
      (count : results.length = i.results.length)
      (assigned : s.frame.assign? i.results results = some f) :
      Moves m s i after { s with frame := { f with rest := after }, memory := memory }
  | ret {results : List Word} {caller f : Frame} {waiting : List Frame} {made : Instr}
      {rest : List Instr} (op : i.op = .ret)
      (values : s.frame.values? m.domain i.operands = some results)
      (callers : s.callers = caller :: waiting) (head : caller.rest = made :: rest)
      (count : results.length = made.results.length)
      (assigned : caller.assign? made.results results = some f) :
      Moves m s i after ⟨{ f with rest := rest }, waiting, s.memory.release s.frame.firstBuffer⟩
  | jump {arm : Nat} {f : Frame} (op : i.op = .br ∨ i.op = .cbr)
      (jumped : s.frame.jump m.domain i arm = .ok f) : Moves m s i after { s with frame := f }

variable {m : Machine} {s next : State} {i : Instr} {after : List Instr}

theorem callMoves (op : i.op = .call) (stepped : m.call s i after = .ok (.running next)) :
    m.Moves s i after next := by
  obtain ⟨args, values, stepped⟩ := boundOk stepped
  split at stepped
  · rename_i fn named
    obtain ⟨callee, entered, same⟩ := boundOk stepped
    cases same
    exact .enter op (readOk values) named entered
  · rename_i unnamed
    split at stepped
    · cases stepped
    · rename_i e named
      obtain ⟨⟨results, memory⟩, given, stepped⟩ := boundOk stepped
      obtain ⟨f, delivered, same⟩ := boundOk stepped
      cases same
      obtain ⟨count, assigned⟩ := Frame.deliverOk delivered
      exact .native op unnamed named given count assigned

theorem retMoves (op : i.op = .ret) (stepped : m.ret s i = .ok (.running next)) :
    m.Moves s i after next := by
  obtain ⟨results, values, stepped⟩ := boundOk stepped
  split at stepped
  · cases stepped
  · rename_i caller waiting callers
    split at stepped
    · cases stepped
    · rename_i made rest head
      obtain ⟨f, delivered, same⟩ := boundOk stepped
      cases same
      obtain ⟨count, assigned⟩ := Frame.deliverOk delivered
      exact .ret op (readOk values) callers head count assigned

theorem plainMoves (op : i.op.category ≠ .call ∧ i.op.category ≠ .control)
    (stepped : m.plain s i after = .ok (.running next)) : m.Moves s i after next := by
  obtain ⟨words, values, stepped⟩ := boundOk stepped
  obtain ⟨⟨w?, memory⟩, access, stepped⟩ := boundOk stepped
  cases w? with
  | none =>
    cases stepped
    exact .keep op access
  | some w =>
    obtain ⟨f, defined, same⟩ := boundOk stepped
    cases same
    obtain ⟨t, rest, results, assigned⟩ := Frame.defineOk defined
    exact .define op (readOk values) access results assigned

theorem stepMoves (stepped : m.step s i after = .ok (.running next)) : m.Moves s i after next := by
  unfold step at stepped
  split at stepped
  · exact callMoves ‹_› stepped
  · exact retMoves ‹_› stepped
  · rename_i op
    obtain ⟨f, jumped, same⟩ := boundOk stepped
    cases same
    exact .jump (.inl op) jumped
  · rename_i op
    obtain ⟨c, -, stepped⟩ := boundOk stepped
    obtain ⟨f, jumped, same⟩ := boundOk stepped
    cases same
    exact .jump (.inr op) jumped
  · rename_i call ret br cbr
    refine plainMoves ?_ stepped
    cases op : i.op <;> simp_all [Opcode.category]

end Machine

inductive Awaits (p : Program) : Function → List Frame → Prop where
  | bottom {fn : Function} : Awaits p fn []
  | call {fn : Function} {f : Frame} {made : Instr} {after : List Instr} {callers : List Frame}
      (runs : f.Runs p (fun _ => True) (made :: after)) (head : f.rest = made :: after)
      (op : made.op = .call) (named : p.functionNamed? made.callee = some fn)
      (next : Awaits p f.fn callers) : Awaits p fn (f :: callers)

structure State.Linked (p : Program) (s : State) : Prop where
  frame : s.frame.Runs p (fun _ => True) s.frame.rest
  callers : Awaits p s.frame.fn s.callers

theorem Awaits.runs {p : Program} {fn : Function} {callers : List Frame}
    (awaits : Awaits p fn callers) : ∀ f ∈ callers, f.Runs p (fun _ => True) (f.rest.drop 1) := by
  induction awaits with
  | bottom => exact List.forall_mem_nil _
  | call runs head op named next ih =>
    refine List.forall_mem_cons.mpr ⟨?_, ih⟩
    rw [head]
    exact runs.drop trivial

namespace Machine

variable {m : Machine} {s start next final : State} {i : Instr} {after : List Instr} {n : Nat}
  {name : String} {args : List Word}

theorem linkedStep (linked : s.Linked m.program) (head : s.frame.rest = i :: after)
    (stepped : m.step s i after = .ok (.running next)) : next.Linked m.program := by
  have runs : next.Runs m.program fun _ => True :=
    (stepRuns (fun _ _ _ _ => trivial) ⟨linked.frame, linked.callers.runs⟩ head trivial).gives _
      stepped
  refine ⟨runs.frame, ?_⟩
  cases stepMoves stepped with
  | keep => exact linked.callers
  | define op values access results assigned =>
    exact (Frame.assignKeeps assigned).1 ▸ linked.callers
  | enter op values named entered =>
    obtain ⟨entry, rest, blocks, count, assigned⟩ := Frame.enterOk entered
    have same := (Frame.assignKeeps assigned).1
    exact .call (head ▸ linked.frame) head op (same ▸ named) linked.callers
  | native op unnamed named given count assigned =>
    exact (Frame.assignKeeps assigned).1 ▸ linked.callers
  | ret op values callers waits count assigned =>
    have awaits := linked.callers
    rw [callers] at awaits
    cases awaits with
    | call _ _ _ _ below => exact (Frame.assignKeeps assigned).1 ▸ below
  | jump op jumped =>
    obtain ⟨label, args, target, words, -, -, -, -, -, assigned⟩ := Frame.jumpOk jumped
    exact (Frame.assignKeeps assigned).1 ▸ linked.callers

theorem reachesKeeps {P : State → Prop} (path : m.Reaches n s final) (first : P s)
    (keeps : ∀ k mid i after next, m.Reaches k s mid → mid.frame.rest = i :: after →
      m.step mid i after = .ok (.running next) → P mid → P next) : P final := by
  induction path with
  | here s => exact first
  | step head stepped rest ih =>
    refine ih (keeps 0 _ _ _ _ (.here _) head stepped first) fun k mid i after next path => ?_
    exact keeps (k + 1) mid i after next (.step head stepped path)

theorem reachesSnoc (path : m.Reaches n s final) (head : final.frame.rest = i :: after)
    (stepped : m.step final i after = .ok (.running next)) : m.Reaches (n + 1) s next :=
  reachesTrans path (reachesOne head stepped)

theorem linkedReaches (linked : s.Linked m.program) (path : m.Reaches n s final) :
    final.Linked m.program :=
  reachesKeeps path linked fun _ _ _ _ _ _ head stepped sofar => linkedStep sofar head stepped

theorem startOk (begins : m.enter name args = .ok start) :
    ∃ fn, m.program.functionNamed? name = some fn ∧ Frame.enter fn args 0 0 = .ok start.frame ∧
      start.callers = [] := by
  unfold enter at begins
  split at begins
  · cases begins
  · rename_i fn named
    obtain ⟨frame, entered, same⟩ := boundOk begins
    cases same
    exact ⟨fn, named, entered, rfl⟩

theorem startLinked (begins : m.enter name args = .ok start) : start.Linked m.program := by
  have runs : start.Runs m.program fun _ => True :=
    (startRuns (fun _ _ _ _ => trivial)).gives _ begins
  obtain ⟨fn, -, -, none⟩ := startOk begins
  refine ⟨runs.frame, ?_⟩
  rw [none]
  exact .bottom

end Machine
end FixedIL
