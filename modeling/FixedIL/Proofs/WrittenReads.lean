import FixedIL.Proofs.Checks
import FixedIL.Proofs.Moves
import FixedIL.Proofs.Paths

/-!
What a run has written when it reads. Every activation keeps to a way of control through its
function, so that a temporary which all ways to an instruction define has been written there; one
that has not been written is zero. No check looks at the order of definitions and uses.
-/
namespace FixedIL

namespace Function

inductive Comes (f : Function) : List TempId → Block → List Instr → Prop where
  | enter {entry : Block} {rest : List Block} (first : f.blocks = entry :: rest) :
      Comes f entry.paramIds entry entry.instrs
  | next {trail : List TempId} {b : Block} {i : Instr} {rest : List Instr}
      (comes : Comes f trail b (i :: rest)) (plain : i.isTerminator = false) :
      Comes f (i.resultIds ++ trail) b rest
  | jump {trail : List TempId} {b target : Block} {i : Instr} {rest : List Instr} {label : String}
      (comes : Comes f trail b (i :: rest)) (branch : i.op = .br ∨ i.op = .cbr)
      (among : label ∈ i.labels) (named : f.blockNamed? label = some target) :
      Comes f (target.paramIds ++ trail) target target.instrs

/-- Whatever way control takes to the place, the temporary is defined on it. -/
def DefinedBefore (f : Function) (id : TempId) (b : Block) (code : List Instr) : Prop :=
  ∀ trail, f.Comes trail b code → id ∈ trail

theorem Comes.definedFirst {f : Function} {entry b : Block} {rest : List Block} {i : Instr}
    {after code : List Instr} {trail : List TempId} {id : TempId} (comes : f.Comes trail b code)
    (first : f.blocks = entry :: rest) (head : entry.instrs = i :: after)
    (defines : id ∈ i.resultIds) (plain : i.isTerminator = false) :
    id ∈ trail ∨ b = entry ∧ code = i :: after := by
  induction comes with
  | enter opens =>
    cases opens.symm.trans first
    exact .inr ⟨rfl, head⟩
  | next comes goesOn ih =>
    rcases ih with defined | ⟨rfl, same⟩
    · exact .inl (List.mem_append_right _ defined)
    · cases same
      exact .inl (List.mem_append_left _ defines)
  | jump comes branch among named ih =>
    rcases ih with defined | ⟨rfl, same⟩
    · exact .inl (List.mem_append_right _ defined)
    · cases same
      rcases branch with is | is <;> simp [Instr.isTerminator, Opcode.isTerminator, is] at plain

theorem blockNamedLabel {f : Function} {label : String} {b : Block}
    (named : f.blockNamed? label = some b) : b.label = label := by
  simpa using List.find?_some named

end Function

def Frame.opened (f : Frame) : List TempId :=
  ((f.fn.blockNamed? f.label).map Block.paramIds).getD []

def Frame.awaited (f : Frame) : List TempId := (f.rest.head?.map Instr.resultIds).getD []

def State.note (s : State) (i : Instr) (next : State) (written : List (List TempId)) :
    List (List TempId) :=
  match i.op, written with
  | .br, own :: outer | .cbr, own :: outer => (next.frame.opened ++ own) :: outer
  | .ret, _ :: own :: outer => ((s.callers.head?.map Frame.awaited).getD [] ++ own) :: outer
  | .call, own :: outer =>
    if next.callers.length = s.callers.length then (i.resultIds ++ own) :: outer
    else next.frame.opened :: own :: outer
  | _, own :: outer => (i.resultIds ++ own) :: outer
  | _, [] => []

def Machine.trace (m : Machine) : Nat → State → List (List TempId) →
    Option (State × List (List TempId))
  | 0, s, written => some (s, written)
  | n + 1, s, written =>
    match s.frame.rest with
    | [] => none
    | i :: after =>
      match m.step s i after with
      | .ok (.running next) => trace m n next (s.note i next written)
      | _ => none

structure Frame.Trailed (f : Frame) (own : List TempId) : Prop where
  comes : ∃ b, f.fn.blockNamed? f.label = some b ∧ f.fn.Comes own b f.rest
  blank : ∀ id w, id ∉ own → f.regs[id.toNat]? = some w → w = 0

namespace Frame

variable {f f' : Frame} {fn : Function} {own : List TempId} {args : List Word}
  {depth firstBuffer arm : Nat} {d : FloatDomain} {i : Instr} {after : List Instr} {id : TempId}

theorem assignOther {ts : List Temp} {ws : List Word} (assigned : f.assign? ts ws = some f')
    (other : id ∉ ts.map Temp.id) : f'.regs[id.toNat]? = f.regs[id.toNat]? := by
  induction ts generalizing f ws with
  | nil =>
    cases assigned
    rfl
  | cons t rest ih =>
    cases ws with
    | nil =>
      cases assigned
      rfl
    | cons w ws =>
      obtain ⟨mid, written, others⟩ := Option.bind_eq_some_iff.mp assigned
      rw [List.map_cons, List.mem_cons, not_or] at other
      rw [ih others other.2, (writePut written).2]
      exact putOther f other.1 w

theorem assignBlank {ts : List Temp} {ws : List Word} (assigned : f.assign? ts ws = some f')
    (blank : ∀ id w, id ∉ own → f.regs[id.toNat]? = some w → w = 0) :
    ∀ id w, id ∉ ts.map Temp.id ++ own → f'.regs[id.toNat]? = some w → w = 0 := by
  intro id w unwritten held
  rw [List.mem_append, not_or] at unwritten
  rw [assignOther assigned unwritten.1] at held
  exact blank id w unwritten.2 held

theorem enterTrailed (entered : Frame.enter fn args depth firstBuffer = .ok f) :
    f.Trailed f.opened := by
  obtain ⟨entry, rest, blocks, -, assigned⟩ := enterOk entered
  have named : fn.blockNamed? entry.label = some entry := by simp [Function.blockNamed?, blocks]
  have blank := assignBlank assigned fun id w (_ : id ∉ ([] : List TempId)) held => blankZero held
  rw [List.append_nil] at blank
  rw [assignShape assigned]
  have opens : opened { (⟨fn, entry.label, entry.instrs, blankRegs fn, firstBuffer⟩ : Frame) with
      regs := f.regs } = entry.paramIds := by simp [opened, named]
  rw [opens]
  exact ⟨⟨entry, named, .enter blocks⟩, blank⟩

theorem Trailed.behind (trailed : f.Trailed own) (head : f.rest = i :: after)
    (plain : i.isTerminator = false) {ts : List Temp} {words : List Word}
    (among : ∀ t ∈ ts, t ∈ i.results) (assigned : f.assign? ts words = some f') :
    Trailed { f' with rest := after } (i.resultIds ++ own) := by
  obtain ⟨b, named, comes⟩ := trailed.comes
  have blank := assignBlank assigned trailed.blank
  have written : ts.map Temp.id ⊆ i.resultIds := List.map_subset _ among
  rw [assignShape assigned]
  refine ⟨⟨b, named, .next (head ▸ comes) plain⟩, fun id w unwritten => blank id w fun member => ?_⟩
  exact unwritten (List.mem_append.mpr ((List.mem_append.mp member).imp_left fun now => written now))

theorem jumpTrailed (trailed : f.Trailed own) (head : f.rest = i :: after)
    (op : i.op = .br ∨ i.op = .cbr) (jumped : f.jump d i arm = .ok f') :
    f'.Trailed (f'.opened ++ own) := by
  obtain ⟨label, args, target, words, among, -, found, -, -, assigned⟩ := jumpOk jumped
  obtain ⟨b, named, comes⟩ := trailed.comes
  have named' : f.fn.blockNamed? target.label = some target :=
    Function.blockNamedLabel found ▸ found
  have blank := assignBlank assigned trailed.blank
  rw [assignShape assigned]
  have opens : opened { f with label := target.label, rest := target.instrs, regs := f'.regs } =
      target.paramIds := by simp [opened, named']
  rw [opens]
  exact ⟨⟨target, named', .jump (head ▸ comes) op (List.mem_of_getElem? among) found⟩, blank⟩

end Frame

namespace State

variable {s next : State} {i : Instr} {own under : List TempId} {outer : List (List TempId)}

theorem noteBehind (op : i.op.category ≠ .call ∧ i.op.category ≠ .control) :
    s.note i next (own :: outer) = (i.resultIds ++ own) :: outer := by
  cases is : i.op <;> simp_all [note, Opcode.category]

theorem noteJump (op : i.op = .br ∨ i.op = .cbr) :
    s.note i next (own :: outer) = (next.frame.opened ++ own) :: outer := by
  rcases op with op | op <;> simp [note, op]

theorem noteExtern (op : i.op = .call) (same : next.callers = s.callers) :
    s.note i next (own :: outer) = (i.resultIds ++ own) :: outer := by
  simp [note, op, same]

theorem noteEnter (op : i.op = .call) (deeper : next.callers = s.frame :: s.callers) :
    s.note i next (own :: outer) = next.frame.opened :: own :: outer := by
  simp [note, op, deeper]

theorem noteRet {caller : Frame} {waiting : List Frame} {made : Instr} {rest : List Instr}
    (op : i.op = .ret) (callers : s.callers = caller :: waiting) (head : caller.rest = made :: rest) :
    s.note i next (own :: under :: outer) = (made.resultIds ++ under) :: outer := by
  simp [note, op, callers, Frame.awaited, head]

end State

namespace Machine

variable {m : Machine} {s start next final : State} {i : Instr} {after : List Instr} {n : Nat}
  {written written' : List (List TempId)} {name : String} {args : List Word} {id : TempId}

theorem trailedStep (linked : s.Linked m.program) (head : s.frame.rest = i :: after)
    (stepped : m.step s i after = .ok (.running next))
    (trailed : List.Forall₂ Frame.Trailed (s.frame :: s.callers) written) :
    List.Forall₂ Frame.Trailed (next.frame :: next.callers) (s.note i next written) := by
  cases trailed with
  | @cons _ own _ outer here below =>
  cases stepMoves stepped with
  | keep op access =>
    have assigned : s.frame.assign? [] [] = some s.frame := rfl
    rw [State.noteBehind op]
    exact .cons (here.behind head (Opcode.plainShape op).2 (List.forall_mem_nil _) assigned) below
  | define op values access results assigned =>
    rw [State.noteBehind op]
    refine .cons (here.behind head (Opcode.plainShape op).2 (fun t only => ?_) assigned) below
    rw [List.mem_singleton.mp only, results]
    exact List.mem_cons_self
  | enter op values named entered =>
    rw [State.noteEnter op rfl]
    exact .cons (Frame.enterTrailed entered) (.cons here below)
  | native op unnamed named given count assigned =>
    rw [State.noteExtern op (by rfl)]
    exact .cons (here.behind head (by rw [Instr.isTerminator, op]; rfl) (fun _ t => t) assigned) below
  | @ret _ _ _ _ made _ op values callers waits count assigned =>
    -- What the finished activation wrote is dropped; the caller goes on behind its own call.
    have awaits := linked.callers
    rw [callers] at awaits below
    cases awaits with
    | call _ head' call _ _ =>
      cases below with
      | cons under below =>
      have same := (List.cons.inj (head'.symm.trans waits)).1
      have goesOn : made.isTerminator = false := by
        rw [Instr.isTerminator, ← same, call]
        rfl
      rw [State.noteRet op callers waits]
      exact .cons (under.behind waits goesOn (fun _ result => result) assigned) below
  | jump op jumped =>
    rw [State.noteJump op]
    exact .cons (Frame.jumpTrailed here head op jumped) below

theorem traceReaches : (∃ written', m.trace n s written = some (final, written')) ↔
    m.Reaches n s final := by
  constructor
  · rintro ⟨written', traced⟩
    induction n generalizing s written with
    | zero =>
      cases traced
      exact .here _
    | succ n ih =>
      rw [trace] at traced
      split at traced
      · cases traced
      · rename_i i after head
        split at traced
        · rename_i next stepped
          exact .step head stepped (ih traced)
        · cases traced
  · intro path
    induction path generalizing written with
    | here s => exact ⟨written, rfl⟩
    | step head stepped rest ih =>
      simp only [trace, head, stepped]
      exact ih

theorem traceTrailed (linked : s.Linked m.program)
    (trailed : List.Forall₂ Frame.Trailed (s.frame :: s.callers) written)
    (traced : m.trace n s written = some (final, written')) :
    List.Forall₂ Frame.Trailed (final.frame :: final.callers) written' := by
  induction n generalizing s written with
  | zero =>
    cases traced
    exact trailed
  | succ n ih =>
    rw [trace] at traced
    split at traced
    · cases traced
    · rename_i i after head
      split at traced
      · rename_i next stepped
        exact ih (linkedStep linked head stepped) (trailedStep linked head stepped trailed) traced
      · cases traced

/-- A temporary that an instruction reads is defined in its function. It has been written in the
same activation if every way to the instruction defines it, and is zero if it has not. -/
theorem readsDominatedWrites (wellFormed : m.program.WellFormed)
    (begins : m.enter name args = .ok start) (path : m.Reaches n start s)
    (head : s.frame.rest = i :: after) (reads : i.Uses id) :
    ∃ b own outer, s.frame.fn.blockNamed? s.frame.label = some b ∧
      m.trace n start [start.frame.opened] = some (s, own :: outer) ∧
      (∃ t ∈ s.frame.fn.temps, t.id = id) ∧
      (s.frame.fn.DefinedBefore id b (i :: after) → id ∈ own) ∧
      (id ∉ own → ∀ w, s.frame.value? m.domain (.temp id) = some w → w = 0) := by
  obtain ⟨fn, named, entered, none⟩ := startOk begins
  have starts : List.Forall₂ Frame.Trailed (start.frame :: start.callers) [start.frame.opened] := by
    rw [none]
    exact .cons (Frame.enterTrailed entered) .nil
  obtain ⟨written, traced⟩ := traceReaches.mpr path
  have linked := startLinked begins
  cases traceTrailed linked starts traced with
  | @cons _ own _ outer here below =>
    obtain ⟨b, isBlock, comes⟩ := here.comes
    rw [head] at comes
    refine ⟨b, own, outer, isBlock, traced, ?_, fun before => before own comes,
      fun unwritten w => here.blank id w unwritten⟩
    have runs := (linkedReaches linked path).frame
    have sound := runs.sound wellFormed (head ▸ List.mem_cons_self)
    rcases reads with operand | ⟨args, branch, argument⟩
    · exact WellFormed.operandAmongTemps sound operand
    · exact WellFormed.argumentAmongTemps sound branch argument

def earlyFunction : Function where
  name := "early"
  sig := .ofTypes [] [.i32]
  blocks := [⟨"entry", [], [
    { Instr.blank (.int .add) with
      type := .i32, results := [⟨1, .i32⟩], operands := [.temp 0, .int 0] },
    { Instr.blank .iconst with type := .i32, results := [⟨0, .i32⟩], operands := [.int 7] },
    { Instr.blank .ret with operands := [.temp 1] }]⟩]
  slots := []
  valueNames := []

def earlyMachine : Machine := ⟨⟨[], [earlyFunction]⟩, none, .ieee⟩

def earlyStart : State :=
  ⟨⟨earlyFunction, "entry", (earlyFunction.blocks.flatMap Block.instrs), #[0, 0], 0⟩, [], .empty⟩

/-- The checks accept a read of what has not been written, and the run goes on with zero. -/
theorem earlyReadUnwritten :
    earlyMachine.program.WellFormed ∧ earlyMachine.enter "early" [] = .ok earlyStart ∧
    (∃ i after next, earlyStart.frame.rest = i :: after ∧ i.Uses 0 ∧
      earlyMachine.trace 0 earlyStart [earlyStart.frame.opened] = some (earlyStart, [[]]) ∧
      earlyMachine.step earlyStart i after = .ok (.running next)) ∧
    (earlyMachine.runFunction .standard "early" []).outcome = .returned [0] := by
  refine ⟨by decide +kernel, rfl, ⟨_, _, _, rfl, .inl List.mem_cons_self, ?_, rfl⟩, by decide +kernel⟩
  decide +kernel

def joinFunction : Function where
  name := "join"
  sig := .ofTypes [.i1] [.i32]
  blocks := [
    ⟨"entry", [⟨0, .i1⟩], [
      { Instr.blank .iconst with type := .i32, results := [⟨1, .i32⟩], operands := [.int 7] },
      { Instr.blank .cbr with
        operands := [.temp 0], labels := ["left", "right"], branchArgs := [[], []] }]⟩,
    ⟨"left", [], [{ Instr.blank .br with labels := ["sum"], branchArgs := [[]] }]⟩,
    ⟨"right", [], [{ Instr.blank .br with labels := ["sum"], branchArgs := [[]] }]⟩,
    ⟨"sum", [], [
      { Instr.blank (.int .add) with
        type := .i32, results := [⟨2, .i32⟩], operands := [.temp 1, .int 1] },
      { Instr.blank .ret with operands := [.temp 2] }]⟩]
  slots := []
  valueNames := []

def joinMachine : Machine := ⟨⟨[], [joinFunction]⟩, none, .ieee⟩

theorem joinedReadsWritten :
    joinMachine.program.WellFormed ∧ earlyMachine.program.WellFormed ∧
    (∀ c ∈ [(0 : Word), 1], ∃ start s i after b own outer,
      joinMachine.enter "join" [c] = .ok start ∧ joinMachine.Reaches 3 start s ∧
      s.frame.rest = i :: after ∧ i.Uses 1 ∧ s.frame.label = "sum" ∧
      joinFunction.DefinedBefore 1 b (i :: after) ∧
      joinMachine.trace 3 start [start.frame.opened] = some (s, own :: outer) ∧ 1 ∈ own) ∧
    ∃ own outer, earlyMachine.trace 0 earlyStart [earlyStart.frame.opened] =
        some (earlyStart, own :: outer) ∧
      0 ∉ own ∧ ∀ w, earlyStart.frame.value? .ieee (.temp 0) = some w → w = 0 := by
  have joins : joinMachine.program.WellFormed := by decide +kernel
  have early : earlyMachine.program.WellFormed := by decide +kernel
  have before {b : Block} {code : List Instr} (sum : b.label = "sum") :
      joinFunction.DefinedBefore 1 b code := by
    intro trail comes
    rcases comes.definedFirst rfl rfl List.mem_cons_self (by decide) with defined | ⟨rfl, -⟩
    · exact defined
    · exact absurd sum (by decide)
  refine ⟨joins, early, fun c among => ?_, ?_⟩
  · have reached : ∃ start s i after, joinMachine.enter "join" [c] = .ok start ∧
        joinMachine.Reaches 3 start s ∧ s.frame.rest = i :: after ∧ i.Uses 1 ∧
        s.frame.fn = joinFunction ∧ s.frame.label = "sum" := by
      rcases List.mem_pair.mp among with rfl | rfl
      all_goals exact ⟨_, _, _, _, rfl, .step rfl rfl (.step rfl rfl (.step rfl rfl (.here _))), rfl,
        .inl List.mem_cons_self, rfl, rfl⟩
    obtain ⟨start, s, i, after, begins, path, head, uses, fn, label⟩ := reached
    obtain ⟨b, own, outer, named, traced, -, written, -⟩ :=
      readsDominatedWrites joins begins path head uses
    have sum : b.label = "sum" := (Function.blockNamedLabel named).trans label
    rw [fn] at written
    exact ⟨start, s, i, after, b, own, outer, begins, path, head, uses, label, before sum, traced,
      written (before sum)⟩
  · have begins : earlyMachine.enter "early" [] = .ok earlyStart := rfl
    obtain ⟨b, own, outer, -, traced, -, -, zero⟩ :=
      readsDominatedWrites early begins (.here _) rfl (.inl List.mem_cons_self)
    have nothing : own = [] := by
      cases traced
      rfl
    have unwritten : 0 ∉ own := nothing ▸ List.not_mem_nil
    exact ⟨own, outer, traced, unwritten, zero unwritten⟩

end Machine
end FixedIL
