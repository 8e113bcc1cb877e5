import FixedIL.Proofs.LoweredFunction
import FixedIL.Proofs.SequenceWords
import FixedIL.Proofs.Steps
import FixedIL.Proofs.Words

/-!
Where lowered code divides by zero. A division tests its whole divisor for zero but divides by
what the low half holds; a divisor that is not zero and has a zero low half slips through, and
nothing else ever does.
-/
namespace FixedIL.Lowering

open Emit

def Reserved (e : Emission) (v : Value) : Prop := ∀ k, v = .temp k → k.toNat < e.nextTemp.toNat

inductive Guarded : List Instr → Prop where
  | nil : Guarded []
  | plain {i : Instr} {rest : List Instr} (total : i.op.divides = false) (tail : Guarded rest) :
      Guarded (i :: rest)
  | division {a b : Value} {r : TempId} {e : Emission} {rest : List Instr}
      (inside : r.toNat < e.nextTemp.toNat) (left : Reserved e a) (right : Reserved e b)
      (tail : Guarded rest) : Guarded ((Sequence.div a b r).written e ++ rest)
  | root {a : Value} {r : TempId} {e : Emission} {rest : List Instr}
      (inside : r.toNat < e.nextTemp.toNat) (operand : Reserved e a)
      (tail : Guarded rest) : Guarded ((Sequence.sqrt a r).written e ++ rest)

theorem guardedPlain {code rest : List Instr} (total : ∀ i ∈ code, i.op.divides = false)
    (tail : Guarded rest) : Guarded (code ++ rest) := by
  induction code with
  | nil => exact tail
  | cons i code ih =>
    exact .plain (total i List.mem_cons_self) (ih fun j hj => total j (List.mem_cons_of_mem _ hj))

section Source

variable {k : Setting} {i : Instr} {is code rest : List Instr}

theorem segmentGuarded (segment : Segment k i code) (total : i.op.divides = false)
    (tail : Guarded rest) : Guarded (code ++ rest) := by
  obtain ⟨lowered, reserved, inside, below, admitted, -, -, -, -, -⟩ := segment
  rename_i σ x names e
  have others (div : i.op ≠ .float .div) (root : i.op ≠ .float .sqrt) :
      Guarded (x.written e ++ rest) := by
    refine guardedPlain (fun j hj => ?_) tail
    have admits := admitted j hj
    simp only [Lowering.admits, total, div, root, decide_false, Bool.or_false, Bool.and_eq_true,
      Bool.not_eq_true'] at admits
    exact admits.2
  have operand {v : Value} (member : v ∈ i.operands) : Reserved e (σ v) :=
    fun k became => Nat.lt_of_lt_of_le (below v member k became) reserved
  cases lowered with
  | sequence results sequenced =>
    rename_i t q
    have result : t.id.toNat < e.nextTemp.toNat :=
      Nat.lt_of_lt_of_le (inside.results t (results ▸ List.mem_singleton_self t)) reserved
    cases sequenced with
    | @arith op u us is count float operands =>
      have first : u ∈ i.operands := operands ▸ List.mem_cons_self
      have second : us.head?.getD u ∈ i.operands := by
        rw [operands]
        cases us with
        | nil => exact List.mem_cons_self
        | cons v vs => exact List.mem_cons_of_mem _ List.mem_cons_self
      cases op with
      | div =>
        rw [writtenDiscard, Sequence.ofFloatOp]
        exact .division result (operand first) (operand second) tail
      | sqrt =>
        rw [writtenDiscard, Sequence.ofFloatOp]
        exact .root result (operand first) tail
      | _ => exact others (by simp [is]) (by simp [is])
    | compare is | ofInt is | toInt is =>
      exact others (by simp [is]) (by simp [is])
  | one rewritten =>
    refine others (fun div => ?_) fun root => ?_
    · cases rewritten <;> simp_all [copied]
    · cases rewritten <;> simp_all [copied]
  | same cast =>
    refine others (fun div => ?_) fun root => ?_
    · rw [div] at cast
      cases cast
    · rw [root] at cast
      cases cast
  | call op => exact others (by simp [op]) (by simp [op])

theorem segmentsGuarded (segments : Segments k is code)
    (total : ∀ i ∈ is, i.op.divides = false) : Guarded code := by
  induction segments with
  | nil => exact .nil
  | cons head tail ih =>
    exact segmentGuarded head (total _ List.mem_cons_self)
      (ih fun j hj => total j (List.mem_cons_of_mem _ hj))

theorem blocksGuarded {bs bs' : List Block} (blocks : LoweredBlocks k bs bs')
    (total : ∀ b ∈ bs, ∀ i ∈ b.instrs, i.op.divides = false) :
    ∀ b ∈ bs', Guarded b.instrs := by
  induction blocks with
  | nil =>
    intro b hb
    cases hb
  | cons head tail ih =>
    intro b hb
    rcases List.mem_cons.mp hb with rfl | hb
    · exact segmentsGuarded head (total _ List.mem_cons_self)
    · exact ih (fun b hb => total b (List.mem_cons_of_mem _ hb)) b hb

end Source

/-- The next code divides by a number that is not zero and whose low half is. -/
def CutDivision (m : Machine) (s : State) : Prop :=
  ∃ a b r e after w, s.frame.rest = (Sequence.div a b r).written e ++ after ∧
    r.toNat < e.nextTemp.toNat ∧ Reserved e a ∧ Reserved e b ∧
    s.frame.value? m.domain b = some w ∧ w ≠ 0 ∧ Word.low w = 0

structure DividesByCode (p : Program) : Prop where
  guarded : ∀ f ∈ p.functions, ∀ b ∈ f.blocks, Guarded b.instrs
  once : ∀ f ∈ p.functions, f.DefinesOnce
  inside : ∀ f ∈ p.functions, ∀ t ∈ f.temps, t.id.toNat < f.nextTemp.toNat

section Runs

variable {m : Machine} {P : List Instr → Prop} {s s' : State} {code after : List Instr}
  {a b v : Value} {r : TempId} {e : Emission}

theorem runsCarry (divides : DividesByCode m.program) (runs : s.Runs m.program P)
    (ahead : s.frame.rest = code ++ after) : s.frame.Carries code := by
  have within (i : Instr) (hi : i ∈ code) : ∃ b ∈ s.frame.fn.blocks, i ∈ b.instrs :=
    runs.frame.within i (ahead ▸ List.mem_append_left _ hi)
  refine ⟨within, divides.once _ runs.frame.fn, runs.frame.regs, fun i hi t ht => ?_⟩
  obtain ⟨b, block, instr⟩ := within i hi
  rw [runs.frame.regs]
  exact divides.inside _ runs.frame.fn t (Function.memTemps block instr ht)

theorem reservedReads {op : Opcode} {operands : List Value} (carries : s.frame.Carries code)
    (head : code.head? = some (computing op .i1 operands e.nextTemp e.loc))
    (reserved : Reserved e v) : ∃ w, s.frame.value? m.domain v = some w := by
  have room := carries.room _ (List.mem_of_head? head) ⟨e.nextTemp, .i1⟩ List.mem_cons_self
  cases v with
  | temp k =>
    have inside : k.toNat < s.frame.regs.size := Nat.lt_trans (reserved k rfl) room
    exact ⟨_, Array.getElem?_eq_getElem inside⟩
  | int n => exact ⟨_, rfl⟩
  | bool n => exact ⟨_, rfl⟩
  | float x => exact ⟨_, rfl⟩
  | null => exact ⟨_, rfl⟩

theorem headLength {i : Instr} (head : code.head? = some i) : 0 < code.length := by
  cases code with
  | nil => cases head
  | cons => exact Nat.succ_pos _

theorem doneRuns {b : Frontier} {w : Word} (runs : b.start.Runs m.program Guarded)
    (ahead : b.start.frame.rest = code ++ after) (done : b.Done w s') (rest : s'.frame.rest = after)
    (tail : Guarded after) : s'.Runs m.program Guarded := by
  have fn : s'.frame.fn = b.start.frame.fn := congrArg (·.frame.fn) done.around
  have callers : s'.callers = b.start.callers := congrArg (·.callers) done.around
  have left : b.start.frame.Runs m.program Guarded after :=
    ⟨runs.frame.fn, runs.frame.regs, tail, fun i hi =>
      runs.frame.within i (ahead ▸ List.mem_append_right _ hi)⟩
  refine ⟨?_, callers ▸ runs.callers⟩
  rw [rest]
  exact left.same fn done.size

theorem divisionRuns (divides : DividesByCode m.program) (runs : s.Runs m.program P)
    (ahead : s.frame.rest = (Sequence.div a b r).written e ++ after)
    (inside : r.toNat < e.nextTemp.toNat) (left : Reserved e a) (right : Reserved e b) :
    ∃ w, s.frame.value? m.domain b = some w ∧
      ((¬ (w ≠ 0 ∧ Word.low w = 0) ∧ ∃ s' w' small, m.Reaches ((Sequence.div a b r).written e).length s s' ∧
          s'.frame.rest = after ∧ Frontier.Done ⟨s, e.nextTemp, r, inside, small⟩ w' s') ∨
        (w ≠ 0 ∧ Word.low w = 0 ∧ ∃ n s' fn i, m.Reaches n s s' ∧
          m.Fails s' (.trap fn (some i) .divisionByZero))) := by
  have carries := runsCarry divides runs ahead
  have small : s.frame.regs.size < UInt32.size := carries.regs ▸ UInt32.toNat_lt_size _
  obtain ⟨wa, readA⟩ := reservedReads (m := m) carries (Sequence.divHead e) left
  obtain ⟨w, readB⟩ := reservedReads (m := m) carries (Sequence.divHead e) right
  refine ⟨w, readB, ?_⟩
  let start : Frontier := ⟨s, e.nextTemp, r, inside, small⟩
  have scope : start.Scope m
      [⟨a, s.frame.typeOf? a, wa⟩, ⟨b, s.frame.typeOf? b, w⟩] e s := by
    refine .start inside small ?_ ?_
    · simpa using ⟨left, right⟩
    · simpa using ⟨readA, readB⟩
  by_cases cut : Sequence.divisorWord w = 0
  · obtain ⟨nonzero, low⟩ := (Sequence.divisorWordZero w).mp cut
    refine .inr ⟨nonzero, low, ?_⟩
    have made : Makes m (· = .divisionByZero) (start.Scope m
        [⟨a, s.frame.typeOf? a, wa⟩, ⟨b, s.frame.typeOf? b, w⟩] e) (Sequence.div a b r) e
        fun _ _ P => ∀ s, ¬ P s := Sequence.divStops (b := start) cut rfl
    obtain ⟨code, P', appended, never, carried⟩ := made
    rw [writtenAppended appended] at ahead carries
    rcases carried s after scope ahead carries.hosts with
      ⟨s', -, -, -, -, holds⟩ | ⟨n, s', fn, i, cause, -, path, fails, rfl⟩
    · exact absurd holds (never s')
    · exact ⟨n, s', fn, i, path, fails⟩
  · refine .inl ⟨fun zero => cut ((Sequence.divisorWordZero w).mpr zero), ?_⟩
    have made : Makes m (fun _ => False) (start.Scope m
        [⟨a, s.frame.typeOf? a, wa⟩, ⟨b, s.frame.typeOf? b, w⟩] e) (Sequence.div a b r) e
        (Sequence.Leaves start (Sequence.divWord wa w)) := Sequence.divMakes (b := start) cut
    obtain ⟨code, P', appended, ⟨-, leaves⟩, carried⟩ := made
    rw [writtenAppended appended] at ahead carries ⊢
    rcases carried s after scope ahead carries.hosts with
      ⟨s', path, rest, -, -, holds⟩ | ⟨_, _, _, _, _, _, _, _, never⟩
    · exact ⟨s', _, small, path, rest, leaves s' holds⟩
    · exact never.elim

theorem rootRuns (divides : DividesByCode m.program) (runs : s.Runs m.program P)
    (ahead : s.frame.rest = (Sequence.sqrt a r).written e ++ after)
    (inside : r.toNat < e.nextTemp.toNat) (operand : Reserved e a) :
    ∃ s' w' small, m.Reaches ((Sequence.sqrt a r).written e).length s s' ∧
      s'.frame.rest = after ∧ Frontier.Done ⟨s, e.nextTemp, r, inside, small⟩ w' s' := by
  have carries := runsCarry divides runs ahead
  have small : s.frame.regs.size < UInt32.size := carries.regs ▸ UInt32.toNat_lt_size _
  obtain ⟨w, read⟩ := reservedReads (m := m) carries (Sequence.sqrtHead e) operand
  let start : Frontier := ⟨s, e.nextTemp, r, inside, small⟩
  have scope : start.Scope m [⟨a, s.frame.typeOf? a, w⟩] e s := by
    refine .start inside small ?_ ?_
    · intro k member
      cases List.mem_singleton.mp member
      exact operand
    · simpa using read
  have made : Makes m (fun _ => False) (start.Scope m [⟨a, s.frame.typeOf? a, w⟩] e)
      (Sequence.sqrt a r) e (Sequence.Leaves start _) := Sequence.sqrtMakes (b := start)
  obtain ⟨code, P', appended, ⟨-, leaves⟩, carried⟩ := made
  rw [writtenAppended appended] at ahead carries ⊢
  rcases carried s after scope ahead carries.hosts with
    ⟨s', path, rest, -, -, holds⟩ | ⟨_, _, _, _, _, _, _, _, never⟩
  · exact ⟨s', _, small, path, rest, leaves s' holds⟩
  · exact never.elim

theorem runCuts (divides : DividesByCode m.program) (runs : s.Runs m.program Guarded)
    {allowed taken : Nat} {fn : String} {i : Option Instr}
    (ends : (m.runFrom allowed taken s).outcome = .failed (.trap fn i .divisionByZero)) :
    ∃ n s', m.Reaches n s s' ∧ CutDivision m s' := by
  /- Sequences are carried out as a whole, so the induction is on all that is left of the limit. -/
  induction allowed using Nat.strongRecOn generalizing s taken with
  | ind allowed ih =>
    have behind {n : Nat} {s' : State} (path : m.Reaches n s s') (some : 0 < n)
        (runs' : s'.Runs m.program Guarded) : ∃ n s', m.Reaches n s s' ∧ CutDivision m s' := by
      by_cases short : allowed < n
      · obtain ⟨fn', i', stopped⟩ := Machine.runFromShort path short taken
        rw [stopped] at ends
        cases ends
      · obtain ⟨left, rfl⟩ := Nat.exists_eq_add_of_le (Nat.le_of_not_lt short)
        rw [Machine.runFromReaches path] at ends
        obtain ⟨k, s'', path', cut⟩ := ih left (by omega) runs' ends
        exact ⟨_, s'', Machine.reachesTrans path path', cut⟩
    have holds := runs.frame.holds
    generalize ahead : s.frame.rest = code at holds
    cases holds with
    | nil =>
      rw [Machine.runFrom.eq_def, ahead] at ends
      cases ends
    | @plain j after total tail =>
      have stepped := Machine.stepRuns divides.guarded runs ahead tail
      rw [Machine.runFrom.eq_def, ahead] at ends
      cases allowed with
      | zero => cases ends
      | succ left =>
        cases result : m.step s j after with
        | error err =>
          simp only [result] at ends
          cases ends
          rw [stepped.zero fn i result] at total
          cases total
        | ok progress =>
          cases progress with
          | finished results =>
            simp only [result] at ends
            cases ends
          | running s' =>
            exact behind (Machine.reachesOne ahead result) Nat.one_pos (stepped.gives _ result)
    | @division a b r e after inside left right tail =>
      obtain ⟨w, read, ⟨-, s', w', small, path, rest, done⟩ | ⟨nonzero, low, -⟩⟩ :=
        divisionRuns divides runs ahead inside left right
      · exact behind path (headLength (Sequence.divHead e)) (doneRuns runs ahead done rest tail)
      · exact ⟨0, s, .here s, a, b, r, e, after, w, ahead, inside, left, right, read, nonzero, low⟩
    | @root a r e after inside operand tail =>
      obtain ⟨s', w', small, path, rest, done⟩ := rootRuns divides runs ahead inside operand
      exact behind path (headLength (Sequence.sqrtHead e)) (doneRuns runs ahead done rest tail)

theorem cutStops (divides : DividesByCode m.program) (runs : s.Runs m.program P)
    (cut : CutDivision m s) :
    ∃ n s' fn i, m.Reaches n s s' ∧ m.Fails s' (.trap fn (some i) .divisionByZero) := by
  obtain ⟨a, b, r, e, after, w, ahead, inside, left, right, read, nonzero, low⟩ := cut
  obtain ⟨w', read', ⟨whole, -⟩ | ⟨-, -, stops⟩⟩ := divisionRuns divides runs ahead inside left right
  · rw [read] at read'
    cases read'
    exact absurd ⟨nonzero, low⟩ whole
  · exact stops

end Runs

theorem loweredDivides {c : Config} {p p' : Program} (wellFormed : p.WellFormed)
    (total : ∀ f ∈ p.functions, ∀ b ∈ f.blocks, ∀ i ∈ b.instrs, i.op.divides = false)
    (lowered : (pass c).run p = .ok p')
    (room : ∀ f ∈ p.functions, ∀ f' ∈ p'.functions, f'.name = f.name → Roomy f f') :
    DividesByCode p' := by
  have each := (runGives wellFormed lowered room).functions
  refine ⟨fun f' hf' => ?_, fun f' hf' => ?_, fun f' hf' => ?_⟩ <;>
    obtain ⟨f, member, is⟩ := partner each.flip hf'
  · exact blocksGuarded is.blocks (total f member)
  · exact is.once
  · exact is.inside

/-- A run of a lowered program ends in a division by zero under some limit exactly if it comes
to a division whose divisor is not zero but has a zero low half. -/
theorem dividesByZeroAtCutDivisors {c : Config} {p : Program} {m : Machine} {name : String}
    {args : List Word} (wellFormed : p.WellFormed)
    (total : ∀ f ∈ p.functions, ∀ b ∈ f.blocks, ∀ i ∈ b.instrs, i.op.divides = false)
    (lowered : (pass c).run p = .ok m.program)
    (room : ∀ f ∈ p.functions, ∀ f' ∈ m.program.functions, f'.name = f.name → Roomy f f') :
    (∃ limit fn i, (m.runFunction limit name args).outcome =
      .failed (.trap fn i .divisionByZero)) ↔
    ∃ start n s, m.enter name args = .ok start ∧ m.Reaches n start s ∧ CutDivision m s := by
  have divides := loweredDivides wellFormed total lowered room
  constructor
  · rintro ⟨limit, fn, i, ends⟩
    have entered : Ends False (m.enter name args) fun s => s.Runs m.program Guarded :=
      Machine.startRuns divides.guarded
    unfold Machine.runFunction at ends
    cases first : m.enter name args with
    | error e =>
      simp only [first] at ends
      cases ends
      exact (entered.zero fn i first).elim
    | ok start =>
      simp only [first] at ends
      obtain ⟨n, s, path, cut⟩ := runCuts divides (entered.gives start first) ends
      exact ⟨start, n, s, rfl, path, cut⟩
  · rintro ⟨start, n, s, first, path, cut⟩
    have entered : Ends False (m.enter name args) fun s => s.Runs m.program fun _ => True :=
      Machine.startRuns fun _ _ _ _ => trivial
    have runs := Machine.reachesRuns path (entered.gives start first)
    obtain ⟨k, s', fn, i, path', fails⟩ := cutStops divides runs cut
    refine ⟨.ofNat (n + k + 1), fn, some i, ?_⟩
    have limit : (StepLimit.ofNat (n + k + 1)).allowed = n + k + 1 := rfl
    unfold Machine.runFunction
    simp only [first, limit]
    rw [Machine.runFromReaches (Machine.reachesTrans path path'), Machine.runFromFails fails]

def inverseSource : Program := ⟨[], [{
  name := "inverse"
  sig := .ofTypes [.f32] [.f32]
  blocks := [⟨"entry", [⟨0, .f32⟩], [
    { Instr.blank (.float .div) with
      type := .f32, results := [⟨2, .f32⟩], operands := [.temp 0, .int 4294967296] },
    { Instr.blank .ret with operands := [.temp 2] }]⟩]
  slots := []
  valueNames := [] }]⟩

def inverseCode : List Instr :=
  (Sequence.div (.temp 0) (.int 4294967296) 2).written ⟨3, .unknown, [], []⟩ ++
    [{ Instr.blank .ret with operands := [.temp 2] }]

def inverseFunction : Function where
  name := "inverse"
  sig := .ofTypes [.i32] [.i32]
  blocks := [⟨"entry", [⟨0, .i32⟩], inverseCode⟩]
  slots := []
  valueNames := []

def inverseMachine : Machine := ⟨⟨[], [inverseFunction]⟩, none, .ieee⟩

theorem inverseLowered :
    (pass ⟨.empty, .host, .fixed16x16⟩).run inverseSource = .ok inverseMachine.program :=
  okOfOption (by decide +kernel)

theorem inverseDividesByZero : inverseSource.WellFormed ∧ ∃ limit fn i,
    (inverseMachine.runFunction limit "inverse" [65536]).outcome =
      .failed (.trap fn i .divisionByZero) := by
  have wellFormed : inverseSource.WellFormed := by decide +kernel
  have total : ∀ f ∈ inverseSource.functions, ∀ b ∈ f.blocks, ∀ i ∈ b.instrs,
      i.op.divides = false := by decide +kernel
  have room : ∀ f ∈ inverseSource.functions, ∀ f' ∈ inverseMachine.program.functions,
      f'.name = f.name → Roomy f f' := by
    intro f source f' target _
    cases List.mem_singleton.mp source
    cases List.mem_singleton.mp target
    exact ⟨by decide +kernel, by decide +kernel⟩
  let start : State := {
    frame := {
      fn := inverseFunction
      label := "entry"
      rest := inverseCode
      regs := #[65536] ++ Array.replicate 24 0
      firstBuffer := 0 }
    callers := []
    memory := Memory.empty.allocate [] }
  have entered : inverseMachine.enter "inverse" [65536] = .ok start :=
    okOfOption (by decide +kernel)
  have reserved : Reserved ⟨3, .unknown, [], []⟩ (.temp 0) := by
    intro k same
    cases same
    decide
  refine ⟨wellFormed, (dividesByZeroAtCutDivisors wellFormed total inverseLowered room).mpr
    ⟨start, 0, start, entered, .here start, ?_⟩⟩
  exact ⟨.temp 0, .int 4294967296, 2, ⟨3, .unknown, [], []⟩, _, _, rfl, by decide, reserved,
    nofun, rfl, by decide, by decide⟩

end FixedIL.Lowering
