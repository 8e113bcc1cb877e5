import FixedIL.Proofs.CopiedText
import FixedIL.Proofs.MirroredValues

/-!
Steps of a reference run, and what the lowered run does instead. Most instructions are answered by
one instruction, a cast by none, and an operation on floats by its sequence.
-/
namespace FixedIL

def EndAlike {α β : Type} (rel : α → β → Prop) : Except RunError α → Except RunError β → Prop
  | .ok a, .ok b => rel a b
  | .error e, .error e' => e'.unplaced = e.unplaced
  | _, _ => False

section EndAlike

variable {α β γ δ : Type} {rel : α → β → Prop} {rel' : γ → δ → Prop} {f f' : Frame} {i j : Instr}
  {cause : TrapCause}

theorem alikeCases {x : Except RunError α} {y : Except RunError β} (alike : EndAlike rel x y) :
    (∃ e e', x = .error e ∧ y = .error e' ∧ e'.unplaced = e.unplaced) ∨
      ∃ a b, x = .ok a ∧ y = .ok b ∧ rel a b := by
  cases x with
  | error e =>
    cases y with
    | error e' => exact .inl ⟨e, e', rfl, rfl, alike⟩
    | ok b => exact alike.elim
  | ok a =>
    cases y with
    | error e' => exact alike.elim
    | ok b => exact .inr ⟨a, b, rfl, rfl, alike⟩

theorem alikeTrap (name : f'.fn.name = f.fn.name) :
    EndAlike rel (f.trap i cause) (f'.trap j cause) := by
  change (RunError.trap _ none cause) = .trap _ none cause
  rw [name]

theorem alikeBind {x : Except RunError α} {y : Except RunError β} {g : α → Except RunError γ}
    {h : β → Except RunError δ} (first : EndAlike rel x y)
    (second : ∀ a b, x = .ok a → rel a b → EndAlike rel' (g a) (h b)) :
    EndAlike rel' (x >>= g) (y >>= h) := by
  cases x with
  | error e =>
    cases y with
    | error e' => exact first
    | ok b => exact first.elim
  | ok a =>
    cases y with
    | error e' => exact first.elim
    | ok b => exact second a b rfl first

theorem alikeIte {c : Prop} [Decidable c] {x x' : Except RunError α} {y y' : Except RunError β}
    (yes : c → EndAlike rel x y) (no : ¬ c → EndAlike rel x' y') :
    EndAlike rel (if c then x else x') (if c then y else y') := by
  split
  · exact yes ‹_›
  · exact no ‹_›

theorem alikeRead {o o' : Option α} {g : α → Except RunError γ} {h : α → Except RunError δ}
    (name : f'.fn.name = f.fn.name) (same : o' = o)
    (next : ∀ a, o = some a → EndAlike rel' (g a) (h a)) :
    EndAlike rel' (f.orTrap i cause o >>= g) (f'.orTrap j cause o' >>= h) := by
  subst same
  cases o' with
  | none => exact alikeTrap name
  | some a => exact next a rfl

end EndAlike

namespace Lowering

/-- The run of the source that all is held against: floats are held as encodings, and the frames
have the slots that the lowered ones have. -/
def referenceMachine (c : Config) (p p' : Program) : Machine :=
  ⟨p.withSlotsOf p', some c.registry, .encoded⟩

def loweredMachine (c : Config) (p' : Program) : Machine := ⟨p', some c.registry, .ieee⟩

structure Related (c : Config) (p p' : Program) (s s' : State) : Prop where
  frame : ∃ fn, Mirrors c p p' fn s.frame s'.frame
  callers : List.Forall₂ (fun f f' => ∃ fn, Mirrors c p p' fn f f') s.callers s'.callers
  memory : Memory.SameBut (s.Hides p) s.memory s'.memory

structure Meeting (c : Config) (p p' : Program) (s s' : State) : Prop where
  related : Related c p p' s s'
  stores : s.HoldsOnly Word.Stores
  linked : s.Linked (p.withSlotsOf p')
  linked' : s'.Linked p'
  housed : s'.Housed
  shallow : s'.callers.length ≤ maxCallDepth
  apart : s.Apart p .encoded

/-- The lowered run comes to what a step of the reference run comes to. If it has nothing to do for
the step, there is less left of the source. -/
inductive Answered (c : Config) (p p' : Program) (s s' : State) :
    Except RunError Progress → Prop where
  | failed {n : Nat} {t : State} {e e' : RunError} (path : (loweredMachine c p').Reaches n s' t)
      (fails : (loweredMachine c p').Fails t e') (same : e'.unplaced = e.unplaced) :
      Answered c p p' s s' (.error e)
  | finished {n : Nat} {t : State} {j : Instr} {rest : List Instr} {words : List Word}
      (path : (loweredMachine c p').Reaches n s' t) (head : t.frame.rest = j :: rest)
      (stepped : (loweredMachine c p').step t j rest = .ok (.finished words)) :
      Answered c p p' s s' (.ok (.finished words))
  | running {n : Nat} {next t : State} (path : (loweredMachine c p').Reaches n s' t)
      (related : Related c p p' next t)
      (less : n = 0 → next.frame.rest.length < s.frame.rest.length) :
      Answered c p p' s s' (.ok (.running next))

def Continues (c : Config) (p p' : Program) : Progress → Progress → Prop
  | .running s, .running s' => Related c p p' s s'
  | .finished words, .finished words' => words' = words
  | _, _ => False

variable {c : Config} {p p' : Program} {fn : Function} {f f' g g' : Frame} {i j : Instr}
  {s s' : State} {after code : List Instr} {σ : Value → Value} {words words' : List Word}

theorem alikeAnswered {x : Except RunError Progress} (head : s'.frame.rest = j :: code)
    (alike : EndAlike (Continues c p p') x ((loweredMachine c p').step s' j code)) :
    Answered c p p' s s' x := by
  generalize made : (loweredMachine c p').step s' j code = y at alike
  cases x with
  | error e =>
    cases y with
    | error e' => exact .failed (.here s') ⟨j, code, head, made⟩ alike
    | ok b => exact alike.elim
  | ok a =>
    cases y with
    | error e' => exact alike.elim
    | ok b =>
      cases a with
      | running next =>
        cases b with
        | running next' => exact .running (Machine.reachesOne head made) alike nofun
        | finished words => exact alike.elim
      | finished words =>
        cases b with
        | running next' => exact alike.elim
        | finished words' =>
          obtain rfl : words' = words := alike
          exact .finished (.here s') head made

section Frames

theorem Mirrors.name (mirrors : Mirrors c p p' fn f f') : f'.fn.name = f.fn.name := by
  rw [mirrors.made.name, mirrors.slotted]
  rfl

theorem hidesMoved {m : Memory} (same : g.fn = s.frame.fn)
    (first : g.firstBuffer = s.frame.firstBuffer) {k : Nat} (hides : s.Hides p k) :
    State.Hides p ⟨g, s.callers, m⟩ k := by
  obtain ⟨f, among, hides⟩ := hides
  rcases List.mem_cons.mp among with rfl | waiting
  · exact ⟨g, List.mem_cons_self, hides.moved same first⟩
  · exact ⟨f, List.mem_cons_of_mem _ waiting, hides⟩

theorem Related.onward {m m' : Memory} (related : Related c p p' s s')
    (mirrors : Mirrors c p p' fn g g') (same : g.fn = s.frame.fn)
    (first : g.firstBuffer = s.frame.firstBuffer) (memory : Memory.SameBut (s.Hides p) m m') :
    Related c p p' ⟨g, s.callers, m⟩ ⟨g', s'.callers, m'⟩ :=
  ⟨⟨fn, mirrors⟩, related.callers, memory.weaken fun _ => hidesMoved same first⟩

theorem Mirrors.resultBelow (mirrors : Mirrors c p p' fn f f') (known : Comparable c p p')
    (rest : f.rest = i :: after) {t : Temp} (result : t ∈ i.results) :
    t.id.toNat < fn.nextTemp.toNat := by
  obtain ⟨b, block, instr⟩ := mirrors.within rest
  have declared := Function.memTemps block instr result
  exact Function.tempBelowNext declared (known.runnable.room fn mirrors.source t declared)

end Frames

section Runs

variable (known : Comparable c p p') (meets : Meeting c p p' s s')

include known in
theorem Comparable.referenceRunnable : (p.withSlotsOf p').Runnable :=
  Program.withSlotsRunnable known.lowered.functions (fun _ _ made => made.name)
    (fun _ _ made => made.slots) known.runnable

include meets in
theorem Meeting.registers' (rest' : s'.frame.rest = j :: code) :
    ∀ t ∈ j.results, t.id.toNat < s'.frame.regs.size := by
  obtain ⟨fn, mirrors⟩ := meets.related.frame
  have runs := meets.linked'.frame
  rw [rest'] at runs
  intro t result
  rw [runs.regs]
  exact mirrors.made.inside t (runs.declared List.mem_cons_self t result)

include known meets in
theorem Meeting.registers (rest : s.frame.rest = i :: after) :
    ∀ t ∈ i.results, t.id.toNat < s.frame.regs.size := by
  have runs := meets.linked.frame
  rw [rest] at runs
  exact runs.resultsInside known.referenceRunnable List.mem_cons_self

include known meets in
theorem Meeting.reads (rest : s.frame.rest = i :: after) (n : Nat) :
    ∃ words, s.frame.values? .encoded (i.operands.take n) = some words := by
  have runs := meets.linked.frame
  rw [rest] at runs
  obtain ⟨words, values, -⟩ := Frame.valuesKnown (d := .encoded) fun id member =>
    runs.operandsInside known.referenceRunnable List.mem_cons_self (List.mem_of_mem_take member)
  exact ⟨words, values⟩

include known meets in
theorem Meeting.few : s'.memory.buffers.length < UInt32.size := by
  have each (f : Frame) (member : f ∈ s'.frame :: s'.callers) :
      f.fn.slots.length ≤ (UInt32.size - 1) / (maxCallDepth + 1) := by
    have own : f.fn ∈ p'.functions := by
      rcases List.mem_cons.mp member with rfl | waits
      · exact meets.linked'.frame.fn
      · exact (meets.linked'.callers.runs f waits).fn
    have few := known.few f.fn own
    refine (Nat.le_div_iff_mul_le (Nat.succ_pos _)).mpr ?_
    rw [Nat.mul_comm]
    exact Nat.le_sub_one_of_lt few
  have bound := Stacked.bounded meets.housed each
  have count : s'.memory.lengths.length = s'.memory.buffers.length := List.length_map _
  have frames := Nat.mul_le_mul_right ((UInt32.size - 1) / (maxCallDepth + 1))
    (Nat.succ_le_succ meets.shallow)
  have most := Nat.mul_div_le (UInt32.size - 1) (maxCallDepth + 1)
  rw [← count]
  exact Nat.lt_of_le_of_lt (Nat.le_trans bound (Nat.le_trans frames most)) (by decide)

end Runs

section Plain

def MadeAlike (hidden : Nat → Prop) (a b : Option Word × Memory) : Prop :=
  b.1 = a.1 ∧ Memory.SameBut hidden a.2 b.2

def Answers (c : Config) (p p' : Program) (s s' : State) (i j : Instr) : Prop :=
  ∃ words words', s.frame.values? .encoded (i.operands.take i.op.minOperands) = some words ∧
    s'.frame.values? .ieee (j.operands.take j.op.minOperands) = some words' ∧
    EndAlike (MadeAlike (s.Hides p)) ((referenceMachine c p p').access s i words)
      ((loweredMachine c p').access s' j words')

theorem accessKeeps {m : Machine} {memory : Memory}
    (access : m.access s i words = .ok (none, memory)) : i.op = .store := by
  unfold Machine.access at access
  split at access
  · obtain ⟨address, -, access⟩ := boundOk access
    cases access
  · obtain ⟨address, -, access⟩ := boundOk access
    obtain ⟨w, -, access⟩ := boundOk access
    cases access
  · assumption
  · split at access <;> cases access

theorem plainResults {op : Opcode} (plain : op.category ≠ .call ∧ op.category ≠ .control) :
    op.results = .one ∨ op.results = .none := by
  revert plain
  cases op <;> simp [Opcode.category, Opcode.results]

theorem defineInside {t : Temp} {w : Word} (result : i.results = [t])
    (room : t.id.toNat < f.regs.size) : f.define i w = .ok (f.put t.id w) := by
  rw [Frame.define, result]
  simp only [Frame.writeInside room w, Frame.orTrap]

theorem stepOther {m : Machine} (plain : i.op.category ≠ .call ∧ i.op.category ≠ .control) :
    m.step s i after = m.plain s i after := by
  revert plain
  cases op : i.op <;> simp [Opcode.category, Machine.step, op]

variable (known : Comparable c p p') (meets : Meeting c p p' s s')
  (mirrors : Mirrors c p p' fn s.frame s'.frame) (rest : s.frame.rest = i :: after)

include known meets mirrors rest

theorem Answers.step (answers : Answers c p p' s s' i j) (rest' : s'.frame.rest = j :: code)
    (plain : i.op.category ≠ .call ∧ i.op.category ≠ .control)
    (plain' : j.op.category ≠ .call ∧ j.op.category ≠ .control)
    (other : sameNumberCast i.op = false) (ids : j.resultIds = i.resultIds)
    (segments : Segments (setting c p p'.externs fn s'.frame.fn) after code) :
    EndAlike (Continues c p p') ((referenceMachine c p p').step s i after)
      ((loweredMachine c p').step s' j code) := by
  obtain ⟨words, words', values, values', access⟩ := answers
  have sound := mirrors.checked known rest
  have ends : i.isTerminator = false := (Opcode.plainShape plain).2
  rw [stepOther plain, stepOther plain']
  change EndAlike _ (s.frame.orTrap i .malformed (s.frame.values? .encoded _) >>= _)
    (s'.frame.orTrap j .malformed (s'.frame.values? .ieee _) >>= _)
  rw [values, values']
  refine alikeBind (x := (referenceMachine c p p').access s i words)
    (y := (loweredMachine c p').access s' j words') access ?_
  rintro ⟨w?, memory⟩ ⟨w?', memory'⟩ made ⟨rfl, same⟩
  cases w?' with
  | none =>
    have none : i.results = [] := WellFormed.noResult sound (by rw [accessKeeps made]; rfl)
    refine meets.related.onward (mirrors.onward known.runnable
      (known.dominated fn mirrors.source) rest ends other segments rfl rfl ?_ ?_ ?_) rfl rfl same
    · rw [Instr.resultIds, none]
      exact List.forall_mem_nil _
    · exact fun _ _ => rfl
    · exact fun _ _ _ => rfl
  | some w =>
    change EndAlike _ (s.frame.define i w >>= _) (s'.frame.define j w >>= _)
    rcases plainResults plain with one | none
    · obtain ⟨t, result, -⟩ := WellFormed.oneResult sound one
      rw [Instr.resultIds, Instr.resultIds, result] at ids
      obtain ⟨t', result', id⟩ := List.map_eq_singleton_iff.mp ids
      have room := meets.registers known rest t (result ▸ List.mem_cons_self)
      have room' := meets.registers' rest' t' (result' ▸ List.mem_cons_self)
      rw [defineInside result room, defineInside result' room', id]
      rw [id] at room'
      refine meets.related.onward (mirrors.onward known.runnable
        (known.dominated fn mirrors.source) rest ends other segments rfl rfl ?_ ?_ ?_) rfl rfl same
      · rw [Instr.resultIds, result]
        refine List.forall_mem_singleton.mpr ?_
        exact (Frame.putSame room' w).trans (Frame.putSame room w).symm
      · rw [Instr.resultIds, result]
        exact fun k other => s.frame.putOther (List.ne_of_not_mem_cons other) w
      · rw [Instr.resultIds, result]
        exact fun k other _ => s'.frame.putOther (List.ne_of_not_mem_cons other) w
    · have nothing : i.results = [] := WellFormed.noResult sound none
      rw [Instr.resultIds, Instr.resultIds, nothing] at ids
      have nothing' : j.results = [] := List.map_eq_nil_iff.mp ids
      unfold Frame.define
      rw [nothing, nothing']
      exact alikeTrap mirrors.name

section Kinds

variable {σ : Value → Value} (settles : Settles ((pass c).site p fn) σ)

omit known meets mirrors rest in
theorem computesAlike (name : s'.frame.fn.name = s.frame.fn.name)
    (memory : Memory.SameBut (s.Hides p) s.memory s'.memory) (computes : i.op.computes = true)
    (computes' : j.op.computes = true)
    (same : FloatDomain.ieee.compute s'.frame.typeOf? j words' =
      FloatDomain.encoded.compute s.frame.typeOf? i words) :
    EndAlike (MadeAlike (s.Hides p)) ((referenceMachine c p p').access s i words)
      ((loweredMachine c p').access s' j words') := by
  rw [Machine.accessComputes computes, Machine.accessComputes computes']
  have made : (loweredMachine c p').domain.compute s'.frame.typeOf? j words' =
      (referenceMachine c p p').domain.compute s.frame.typeOf? i words := same
  rw [made]
  split
  · exact ⟨rfl, memory⟩
  · exact alikeTrap name

omit known meets mirrors rest in
theorem literalValues {d : FloatDomain} {v : Value} {n : Int64} (literal : v.intLiteral? = some n) :
    f.values? d [v] = some [Word.ofInt64 n] := by
  simp [Frame.values?, Machine.literalWord literal]

omit known meets mirrors rest in
theorem valuesThree {d : FloatDomain} {u v w : Value}
    (values : f.values? d [u, v, w] = some words) : ∃ a b x, words = [a, b, x] := by
  obtain ⟨a, others, rfl, -, values⟩ := Frame.valuesCons values
  have two : f.values? d ([v, w].take 2) = some others := values
  obtain ⟨b, x, -, -, rfl⟩ := Frame.valuesTwo two
  exact ⟨a, b, x, rfl⟩

omit known meets mirrors rest in
theorem constantNumber {v : Value} {x : Float} (literal : numberLiteral? v = some x) :
    FloatDomain.constantValue v = x := by
  cases v with
  | float y => exact Option.some.inj literal
  | int n => exact Option.some.inj literal
  | bool b => exact Option.some.inj literal
  | temp | null => cases literal

omit known meets mirrors rest in
theorem slotNumberKept {n : Int64} (nonneg : 0 ≤ n) (small : n.toInt < UInt32.size) :
    n.toUInt64.toUInt32.toUInt64.toInt64 = n := by
  have known : 0 ≤ n.toInt := Int64.le_iff_toInt_le.mp nonneg
  have cut := Copying.slotNumberCut nonneg
  have small : n.toInt < 2 ^ 32 := small
  exact Int64.toInt_inj.mp (by omega)

omit rest in
theorem slotsFew : (fn.slots.length : Int) ≤ UInt32.size := by
  have few := known.few s'.frame.fn meets.linked'.frame.fn
  have more := mirrors.made.slots.length_le
  have bound : s'.frame.fn.slots.length ≤ (maxCallDepth + 1) * s'.frame.fn.slots.length :=
    Nat.le_mul_of_pos_left _ (Nat.succ_pos _)
  omega

omit known meets mirrors rest in
theorem slotAlike {slot offset : Word} (name : f'.fn.name = f.fn.name)
    (slots : f.fn.slots = f'.fn.slots) (first : f'.firstBuffer = f.firstBuffer) :
    EndAlike (fun a a' => a' = a) (Machine.slotAddress f i slot offset)
      (Machine.slotAddress f' j slot offset) := by
  unfold Machine.slotAddress
  simp only [slots, first]
  exact alikeIte (fun _ => rfl) fun _ => alikeTrap name

section Memory

variable {hidden : Nat → Prop} {m m' : Memory} {a : Word}

omit known meets mirrors rest in
theorem targetAlike {base offset : Word} (name : f'.fn.name = f.fn.name) :
    EndAlike (fun a a' => a' = a ∧ a = base + offset) (Machine.target f i base offset)
      (Machine.target f' j base offset) :=
  alikeIte (fun _ => alikeTrap name) fun _ => ⟨rfl, rfl⟩

omit known meets mirrors rest in
theorem loadAlike (name : f'.fn.name = f.fn.name) (same : Memory.SameBut hidden m m')
    (avoids : Memory.Avoids hidden a) (type : j.type = i.type.stored) :
    EndAlike (fun w w' => w' = w) (Machine.loadFrom .encoded f i m a)
      (Machine.loadFrom .ieee f' j m' a) := by
  unfold Machine.loadFrom
  simp only [FloatDomain.encodedSize, FloatDomain.encodedLoad, ieeeSize, type, same.read avoids]
  exact alikeIte (fun _ => rfl) fun _ => alikeRead name rfl fun _ _ => rfl

omit known meets mirrors rest in
theorem storeAlike {w : Word} (name : f'.fn.name = f.fn.name) (same : Memory.SameBut hidden m m')
    (avoids : Memory.Avoids hidden a) (type : j.type = i.type.stored) :
    EndAlike (Memory.SameBut hidden) (Machine.storeTo .encoded f i m a w)
      (Machine.storeTo .ieee f' j m' a w) := by
  unfold Machine.storeTo
  simp only [FloatDomain.encodedStore, type]
  refine alikeIte (fun _ => same) fun _ => ?_
  cases stored : m.write? a (FloatDomain.ieee.store i.type.stored w) with
  | none =>
    rw [same.writeFails avoids stored]
    exact alikeTrap name
  | some written =>
    obtain ⟨written', stored', same⟩ := same.write avoids stored
    rw [stored']
    exact same

end Memory

include settles

theorem loadAnswers {t : Temp} (op : i.op = .load) (operands : i.operands.length = 2) (loc : Loc) :
    Answers c p p' s s' i { PassM.redefinition i t .load
      (((pass c).site p fn).encoding.mapTy i.type) (i.operands.map σ) with loc := loc } := by
  have memory := meets.related.memory
  obtain ⟨words, values⟩ := meets.reads known rest i.op.minOperands
  rw [op] at values
  have values' := (mirrors.operands known rest settles 2).trans values
  obtain ⟨u, v, pair⟩ := List.length_eq_two.mp operands
  obtain ⟨base, offset, -, -, rfl⟩ := Frame.valuesTwo (pair ▸ values)
  have apart := meets.apart
  simp only [State.Apart, Frame.address?, rest, op, values] at apart
  refine ⟨[base, offset], [base, offset], op ▸ values, values', ?_⟩
  simp only [Machine.access, op]
  refine alikeBind (targetAlike mirrors.name) ?_
  rintro a _ - ⟨rfl, rfl⟩
  refine alikeBind (loadAlike mirrors.name memory (apart _ rfl)
    (Ty.storedMapped known.lowered.supported i.type)) ?_
  rintro w _ - rfl
  exact ⟨rfl, memory⟩

theorem storeAnswers (op : i.op = .store) (operands : i.operands.length = 3) (loc : Loc) :
    Answers c p p' s s' i { Instr.blank .store with
      type := ((pass c).site p fn).encoding.mapTy i.type, operands := i.operands.map σ
      loc := loc } := by
  have memory := meets.related.memory
  obtain ⟨words, values⟩ := meets.reads known rest i.op.minOperands
  rw [op] at values
  have values' := (mirrors.operands known rest settles 3).trans values
  obtain ⟨u, v, w, three⟩ := List.length_eq_three.mp operands
  obtain ⟨base, word, offset, rfl⟩ := valuesThree (three ▸ values)
  have apart := meets.apart
  simp only [State.Apart, Frame.address?, rest, op, values] at apart
  refine ⟨[base, word, offset], [base, word, offset], op ▸ values, values', ?_⟩
  simp only [Machine.access, op]
  refine alikeBind (targetAlike mirrors.name) ?_
  rintro a _ - ⟨rfl, rfl⟩
  refine alikeBind (storeAlike mirrors.name memory (apart _ rfl)
    (Ty.storedMapped known.lowered.supported i.type)) ?_
  exact fun written written' _ same => ⟨rfl, same⟩

theorem stackaddrAnswers {v : Value} {n : Int64} (op : i.op = .stackaddr)
    (slot : i.operands.head? = some v) (literal : v.intLiteral? = some n) (nonneg : 0 ≤ n)
    (loc : Loc) :
    Answers c p p' s s' i { i with
      operands := .int n.toUInt64.toUInt32.toUInt64.toInt64 :: (i.operands.map σ).drop 1
      branchArgs := i.branchArgs.map (·.map σ), loc := loc } := by
  obtain ⟨slot', offset, k, pair, literal', low, high⟩ :=
    WellFormed.slotNumber (mirrors.checked known rest) op
  rw [pair] at slot
  obtain rfl := Option.some.inj slot
  obtain rfl := Option.some.inj (literal.symm.trans literal')
  have number : n.toUInt64.toUInt32.toUInt64.toInt64 = n :=
    slotNumberKept nonneg (Int.lt_of_lt_of_le high (slotsFew known meets mirrors))
  have slots : s.frame.fn.slots = s'.frame.fn.slots := by rw [mirrors.slotted]; rfl
  obtain ⟨words, values⟩ := meets.reads known rest i.op.minOperands
  rw [op, pair] at values
  obtain ⟨a, o, first, second, rfl⟩ := Frame.valuesTwo values
  obtain rfl := Option.some.inj ((Machine.literalWord literal).symm.trans first)
  have same : s'.frame.values? .ieee ([offset].map σ) = s.frame.values? .encoded [offset] :=
    mirrors.values known rest settles fun id member =>
      .inl (pair ▸ List.mem_cons_of_mem _ member)
  have moved : s'.frame.values? .ieee [σ offset] = some [o] :=
    same.trans (by simp [Frame.values?, second])
  have values' : s'.frame.values? .ieee ((Value.int n.toUInt64.toUInt32.toUInt64.toInt64 ::
      (i.operands.map σ).drop 1).take i.op.minOperands) = some [Word.ofInt64 n, o] := by
    rw [op, pair, number]
    exact Frame.valuesRead rfl moved
  refine ⟨[Word.ofInt64 n, o], _, by rw [op, pair]; exact values, values', ?_⟩
  simp only [Machine.access, op]
  refine alikeBind (slotAlike mirrors.name slots mirrors.firstBuffer) ?_
  rintro a _ - rfl
  exact ⟨rfl, meets.related.memory⟩

theorem rewrittenAnswers (rewritten : Rewritten ((pass c).site p fn) σ i j)
    (plain : i.isTerminator = false) (loc : Loc) :
    Answers c p p' s s' i { j with loc := loc } := by
  have memory := meets.related.memory
  have name := mirrors.name
  cases rewritten with
  | @intConst v t n op operands results literal =>
    refine ⟨[Word.ofInt64 n], [Word.ofInt64 n], ?_, literalValues literal,
      computesAlike name memory (by rw [op]; rfl) rfl ?_⟩
    · rw [op, operands]
      exact literalValues literal
    · simp only [FloatDomain.compute, op]
      rfl
  | @floatConst v t x op operands results literal =>
    obtain ⟨words, values⟩ := meets.reads known rest i.op.minOperands
    have float : i.type.isFloat = true := by
      have yields := (mirrors.typed known i (mirrors.inCode rest)).yields
      rwa [op] at yields
    have type : ((pass c).site p fn).encoding.mapTy i.type = .i32 :=
      (Ty.storedMapped known.lowered.supported i.type).trans (Ty.storedFloat float)
    refine ⟨words, _, values, rfl, computesAlike name memory (by rw [op]; rfl) rfl ?_⟩
    simp only [FloatDomain.compute, op, operands]
    change Except.ok (Word.normalize (((pass c).site p fn).encoding.mapTy i.type) _) = _
    rw [type]
    exact congrArg Except.ok ((Word.normalizeOfInt32 _).trans
      (congrArg (fun x => Word.ofInt32 (Fixed.ofFloat x)) (constantNumber literal).symm))
  | @intLiteral v t n op operands results literal =>
    refine ⟨[Word.ofInt64 n], _, ?_, rfl, computesAlike name memory (by rw [op]; rfl) rfl ?_⟩
    · rw [op, operands]
      exact literalValues literal
    · have untyped : s.frame.typeOf? v = none := by
        cases v <;> first | rfl | cases literal
      simp only [FloatDomain.compute, op, operands, untyped]
      exact congrArg Except.ok (Word.normalizeOfInt32 _)
  | @select t op operands results =>
    obtain ⟨words, values⟩ := meets.reads known rest i.op.minOperands
    refine ⟨words, words, values, ?_, computesAlike name memory (by rw [op]; rfl) rfl ?_⟩
    · rw [op] at values
      exact (mirrors.operands known rest settles 3).trans values
    · unfold FloatDomain.compute
      rw [op]
      rcases words with _ | ⟨a, _ | ⟨b, _ | ⟨d, words⟩⟩⟩ <;> rfl
  | load op operands results => exact loadAnswers known meets mirrors rest settles op operands loc
  | store op operands results => exact storeAnswers known meets mirrors rest settles op operands loc
  | stackaddr op operands results slot literal nonneg =>
    exact stackaddrAnswers known meets mirrors rest settles op slot literal nonneg loc
  | copied kept =>
    obtain ⟨words, values⟩ := meets.reads known rest i.op.minOperands
    have holds := meets.stores s.frame List.mem_cons_self
    have computes : i.op.computes = true := by
      revert kept plain
      rw [Instr.isTerminator]
      cases i.op <;> simp [copied, Opcode.computes, Opcode.isTerminator]
    refine ⟨words, words, values, (mirrors.operands known rest settles _).trans values,
      computesAlike name memory computes computes ?_⟩
    exact mirrors.copiedAlike known rest settles rfl rfl rfl values kept computes holds

end Kinds

theorem castAnswered {v : Value} {t : Temp} (cast : sameNumberCast i.op = true)
    (operands : i.operands = [v]) (result : i.results = [t])
    (segments : Segments (setting c p p'.externs fn s'.frame.fn) after s'.frame.rest) :
    Answered c p p' s s' ((referenceMachine c p p').step s i after) := by
  have dominated := known.dominated fn mirrors.source
  have result' : i.resultIds = [t.id] := by rw [Instr.resultIds, result]; rfl
  obtain ⟨words, values⟩ := meets.reads known rest i.op.minOperands
  have computes : i.op.computes = true := by
    revert cast
    cases i.op <;> intro cast <;> first | rfl | cases cast
  have one : i.op.minOperands = 1 := by
    revert cast
    cases i.op <;> intro cast <;> first | rfl | cases cast
  have room := meets.registers known rest t (result ▸ List.mem_cons_self)
  rw [one, operands] at values
  obtain ⟨w, value, rfl⟩ := Frame.valuesOne values
  have made : FloatDomain.encoded.compute s.frame.typeOf? i [w] = .ok w := by
    unfold FloatDomain.compute
    revert cast
    cases i.op <;> intro cast <;> first | rfl | cases cast
  have read : s.frame.values? .encoded (i.operands.take i.op.minOperands) = some [w] := by
    rw [one, operands]
    exact values
  rw [Machine.stepComputes (m := referenceMachine c p p') computes read made result room]
  refine .running (.here s') (meets.related.onward (mirrors.cast known.runnable dominated rest cast
    operands result' segments rfl ?_ ?_) rfl rfl meets.related.memory) fun _ => ?_
  · exact (Frame.putSame room w).trans value.symm
  · exact fun id other => s.frame.putOther other w
  · rw [rest]
    exact Nat.lt_succ_self _

section Sequences

variable {t : Temp} {next : State} {w : Word} {n : Nat}

theorem sequenceAnswered {e : Emission} (computes : i.op.computes = true)
    (other : sameNumberCast i.op = false) (result : i.results = [t])
    (values : s.frame.values? .encoded (i.operands.take i.op.minOperands) = some words)
    (made : FloatDomain.encoded.compute s.frame.typeOf? i words = .ok w)
    (path : (loweredMachine c p').Reaches n s' next)
    (segments : Segments (setting c p p'.externs fn s'.frame.fn) after next.frame.rest)
    (around : Frontier.surroundings next = Frontier.surroundings s')
    (held : next.frame.regs[t.id.toNat]? = some w) (reserved : fn.nextTemp.toNat ≤ e.nextTemp.toNat)
    (kept : ∀ id, id.toNat < e.nextTemp.toNat → id ≠ t.id →
      next.frame.regs[id.toNat]? = s'.frame.regs[id.toNat]?) :
    Answered c p p' s s' ((referenceMachine c p p').step s i after) := by
  obtain ⟨frame, callers, memory⟩ := next
  simp only [Frontier.surroundings, State.mk.injEq] at around
  obtain ⟨same, rfl, rfl⟩ := around
  have dominated := known.dominated fn mirrors.source
  have plain : i.isTerminator = false := by
    revert computes
    rw [Instr.isTerminator]
    cases i.op <;> simp [Opcode.computes, Opcode.isTerminator]
  have room := meets.registers known rest t (result ▸ List.mem_cons_self)
  have result' : i.resultIds = [t.id] := by rw [Instr.resultIds, result]; rfl
  rw [Machine.stepComputes (m := referenceMachine c p p') computes values made result room]
  refine .running path (meets.related.onward (mirrors.onward known.runnable dominated rest plain
    other segments rfl same ?_ ?_ ?_) rfl rfl meets.related.memory) fun _ => ?_
  · rw [result']
    exact List.forall_mem_singleton.mpr (held.trans (Frame.putSame room w).symm)
  · rw [result']
    exact fun id other => s.frame.putOther (List.ne_of_not_mem_cons other) w
  · rw [result']
    rintro id other ⟨u, declared, rfl⟩
    have below := Function.tempBelowNext declared
      (known.runnable.room fn mirrors.source u declared)
    exact kept u.id (Nat.lt_of_lt_of_le below reserved) (List.ne_of_not_mem_cons other)
  · rw [rest]
    exact Nat.lt_succ_self _

omit known rest in
theorem carriesAhead (ahead : s'.frame.rest = code ++ after) : s'.frame.Carries code := by
  have runs := meets.linked'.frame
  rw [ahead] at runs
  refine ⟨fun i member => runs.within i (List.mem_append_left _ member), mirrors.made.once,
    runs.regs, fun i member t result => ?_⟩
  rw [runs.regs]
  exact mirrors.made.inside t (runs.declared (List.mem_append_left _ member) t result)

omit known meets mirrors rest in
theorem literalShiftWritten (k : Int64) (r : TempId) (e : Emission) :
    Emit.written (Sequence.ofInt (.int k) .i32 r) e =
      [Emit.computing (.int .shl) .i32 [.int k, .int Sequence.fraction] r e.loc] := List.drop_left

omit known meets mirrors rest in
theorem literalShift {m : Machine} {k : Int64} {r : TempId} {loc : Loc}
    (ahead : s.frame.rest =
      Emit.computing (.int .shl) .i32 [.int k, .int Sequence.fraction] r loc :: after)
    (room : r.toNat < s.frame.regs.size) :
    m.Reaches 1 s { s with frame := { s.frame.put r
      (Word.ofInt32 (Fixed.ofInt (Word.low (Word.ofInt64 k)))) with rest := after } } := by
  have read : s.frame.values? m.domain [.int k, .int Sequence.fraction] =
      some [Word.ofInt64 k, Word.ofInt64 Sequence.fraction] := rfl
  have shifted : Word.normalize .i32 (Word.ofInt64 k <<< 16) =
      Word.ofInt32 (Fixed.ofInt (Word.low (Word.ofInt64 k))) := by
    rw [Word.normalizeI32, Word.lowShiftLeft]
    rfl
  rw [← shifted]
  refine Machine.reachesOne ahead (Machine.stepComputes (t := ⟨r, .i32⟩) rfl read ?_ rfl room)
  simp [FloatDomain.compute, Emit.computing, Instr.blank, Sequence.shiftLeftNarrow]

theorem sequencedAnswered {q : TempId → Emit Value} {e : Emission} {σ : Value → Value}
    (settles : Settles ((pass c).site p fn) σ) (sequenced : Sequenced ((pass c).site p fn) σ i q)
    (result : i.results = [t]) (reserved : fn.nextTemp.toNat ≤ e.nextTemp.toNat)
    (ahead : s'.frame.rest = Emit.written (q t.id) e ++ code)
    (segments : Segments (setting c p p'.externs fn s'.frame.fn) after code) :
    Answered c p p' s s' ((referenceMachine c p p').step s i after) := by
  obtain ⟨words, values⟩ := meets.reads known rest i.op.minOperands
  have holds := meets.stores s.frame List.mem_cons_self
  have result' : i.resultIds = [t.id] := by rw [Instr.resultIds, result]; rfl
  have other := sequencedNoCast sequenced
  have computes : i.op.computes = true := by
    cases sequenced with
    | arith is | compare is | ofInt is | toInt is => rw [is]; rfl
  have carries := carriesAhead meets mirrors ahead
  obtain ⟨w, made, means | ⟨n, is, rfl⟩⟩ :=
    mirrors.means known rest settles holds result' reserved sequenced values
  · have inside : t.id.toNat < e.nextTemp.toNat :=
      Nat.lt_of_lt_of_le (mirrors.resultBelow known rest (result ▸ List.mem_cons_self)) reserved
    obtain ⟨-, -, next, path, left, held, -, around, kept⟩ :=
      Sequence.sequencesLeaveReferenceBits (m := loweredMachine c p') means inside ahead carries
    exact sequenceAnswered known meets mirrors rest computes other result values made path
      (left ▸ segments) around held reserved kept
  · rw [is, literalShiftWritten] at ahead carries
    have room : t.id.toNat < s'.frame.regs.size :=
      carries.room _ List.mem_cons_self ⟨t.id, .i32⟩ List.mem_cons_self
    exact sequenceAnswered known meets mirrors rest computes other result values made
      (literalShift ahead room) segments rfl (Frame.putSame room _) reserved fun id _ other =>
      s'.frame.putOther other _

end Sequences

end Plain

end Lowering
end FixedIL
