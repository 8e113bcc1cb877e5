import FixedIL.Proofs.Checks
import FixedIL.Proofs.Moves

/-!
Runs of well-formed programs. Every operand, label, argument list and register that a step
asks for is there, callees get the arguments and give the results that the signature names,
and what can still stop a run depends on the words and the limits, not on the shape of the
program.
-/
namespace FixedIL

def TrapCause.remains : TrapCause → Bool
  | .stepLimit | .callDepth | .divisionByZero | .nullDereference => true
  | _ => false

/-- Bytes outside the slots belong to nobody: what an address makes of them is left open, for
the instructions that go through one. -/
def RunError.remains : RunError → Bool
  | .trap _ place .wildAccess => place.any fun i => i.op = .load || i.op = .store || i.op = .call
  | .trap _ _ cause => cause.remains
  | .noBinding _ => true
  | .unknownFunction _ => false

def Outcome.Expected (values : Nat) : Outcome → Prop
  | .returned results => results.length = values
  | .failed e => e.remains = true

/-- A well-formed program with a register for every temporary, and externs that give their
results in one way. -/
structure Program.Runnable (p : Program) : Prop where
  wellFormed : p.WellFormed
  room : ∀ f ∈ p.functions, ∀ t ∈ f.temps, t.id.toNat + 1 < UInt32.size
  externs : ∀ e ∈ p.externs, e.sig.structReturnIndex? = none ∨ e.sig.returns = []

def Safe {α : Type} (x : Except RunError α) (Q : α → Prop) : Prop :=
  match x with
  | .ok a => Q a
  | .error e => e.remains = true

section Safe

variable {α β : Type} {Q : α → Prop} {R : β → Prop} {f : Frame} {i : Instr} {cause : TrapCause}

theorem safeBind {x : Except RunError α} {g : α → Except RunError β} (first : Safe x Q)
    (second : ∀ a, Q a → Safe (g a) R) : Safe (x >>= g) R := by
  cases x with
  | error e => exact first
  | ok a => exact second a first

theorem safeTry {o : Option α} {g : α → Except RunError β}
    (allowed : (RunError.trap f.fn.name (some i) cause).remains = true)
    (next : ∀ a, o = some a → Safe (g a) R) : Safe (f.orTrap i cause o >>= g) R := by
  cases o with
  | none => exact allowed
  | some a => exact next a rfl

theorem safeRead {o : Option α} {a : α} {g : α → Except RunError β} (known : o = some a)
    (next : Safe (g a) R) : Safe (f.orTrap i cause o >>= g) R := by
  rw [known]
  exact next

end Safe

namespace Function

variable {f : Function}

def Reached (f : Function) (size : Nat) : Prop := ∀ t ∈ f.temps, t.id.toNat < size

theorem reachedNext (room : ∀ t ∈ f.temps, t.id.toNat + 1 < UInt32.size) :
    f.Reached f.nextTemp.toNat :=
  fun t member => tempBelowNext member (room t member)

end Function

namespace Frame

variable {f f' : Frame} {d : FloatDomain} {p : Program} {i : Instr} {code after : List Instr}

theorem valueKnown {v : Value} (inside : ∀ id, v = .temp id → id.toNat < f.regs.size) :
    ∃ w, f.value? d v = some w := by
  cases v with
  | temp id => exact ⟨_, Array.getElem?_eq_getElem (inside id rfl)⟩
  | int n => exact ⟨_, rfl⟩
  | bool b => exact ⟨_, rfl⟩
  | float x => exact ⟨_, rfl⟩
  | null => exact ⟨_, rfl⟩

theorem valuesKnown {vs : List Value} (inside : ∀ id, .temp id ∈ vs → id.toNat < f.regs.size) :
    ∃ ws, f.values? d vs = some ws ∧ ws.length = vs.length := by
  induction vs with
  | nil => exact ⟨[], rfl, rfl⟩
  | cons v rest ih =>
    obtain ⟨w, first⟩ := valueKnown (d := d) fun id same => inside id (same ▸ List.mem_cons_self)
    obtain ⟨ws, others, count⟩ := ih fun id member => inside id (List.mem_cons_of_mem _ member)
    refine ⟨w :: ws, ?_, by rw [List.length_cons, count, List.length_cons]⟩
    unfold values? at others
    simp [values?, List.mapM_cons, first, others]

theorem assignKnown {ts : List Temp} (ws : List Word)
    (inside : ∀ t ∈ ts, t.id.toNat < f.regs.size) : ∃ f', f.assign? ts ws = some f' := by
  induction ts generalizing f ws with
  | nil => exact ⟨f, rfl⟩
  | cons t rest ih =>
    cases ws with
    | nil => exact ⟨f, rfl⟩
    | cons w ws =>
      have here := inside t List.mem_cons_self
      have written : f.write? t.id w = some { f with regs := f.regs.set t.id.toNat w here } := by
        rw [write?, dif_pos here]
      obtain ⟨f', others⟩ := ih (f := { f with regs := f.regs.set t.id.toNat w here }) ws
        fun u member => by simpa using inside u (List.mem_cons_of_mem _ member)
      exact ⟨f', by rw [assign?, written]; exact others⟩

theorem Runs.reached {P : List Instr → Prop} (runnable : p.Runnable) (runs : f.Runs p P code) :
    f.fn.Reached f.regs.size := by
  rw [runs.regs]
  exact Function.reachedNext (runnable.room f.fn runs.fn)

theorem Runs.resultsInside {P : List Instr → Prop} (runnable : p.Runnable)
    (runs : f.Runs p P code) (member : i ∈ code) : ∀ t ∈ i.results, t.id.toNat < f.regs.size := by
  exact fun t result => runs.reached runnable t (runs.declared member t result)

theorem Runs.operandsInside {P : List Instr → Prop} (runnable : p.Runnable)
    (runs : f.Runs p P code) (member : i ∈ code) {id : TempId} (operand : .temp id ∈ i.operands) :
    id.toNat < f.regs.size := by
  obtain ⟨t, defined, rfl⟩ :=
    WellFormed.operandAmongTemps (runs.sound runnable.wellFormed member) operand
  exact runs.reached runnable t defined

theorem Runs.argumentsInside {P : List Instr → Prop} (runnable : p.Runnable)
    (runs : f.Runs p P code) (member : i ∈ code) {args : List Value} (branch : args ∈ i.branchArgs)
    {id : TempId} (argument : .temp id ∈ args) : id.toNat < f.regs.size := by
  obtain ⟨t, defined, rfl⟩ :=
    WellFormed.argumentAmongTemps (runs.sound runnable.wellFormed member) branch argument
  exact runs.reached runnable t defined

theorem blocksClosed (runnable : p.Runnable) {fn : Function} (member : fn ∈ p.functions) :
    ∀ b ∈ fn.blocks, Closed b.instrs :=
  fun _ block => WellFormed.blockClosed (WellFormed.noViolation runnable.wellFormed member) block

theorem enterSafe (runnable : p.Runnable) {fn : Function} (member : fn ∈ p.functions)
    {args : List Word} (count : args.length = fn.sig.params.length) (depth firstBuffer : Nat) :
    Safe (Frame.enter fn args depth firstBuffer) fun f => f.fn = fn ∧ f.Runs p Closed f.rest := by
  have entered :
      Ends False (Frame.enter fn args depth firstBuffer) fun f => f.Runs p Closed f.rest :=
    enterRuns member (blocksClosed runnable member)
  obtain ⟨entry, others, blocks, params⟩ :=
    WellFormed.entryParams (WellFormed.noViolation runnable.wellFormed member)
  have inside : ∀ t ∈ entry.params, t.id.toNat < (blankRegs fn).size := fun t param => by
    have defined : t ∈ fn.temps := Function.memParams (blocks ▸ List.mem_cons_self) param
    rw [blankRegs, Array.size_replicate]
    exact Function.reachedNext (runnable.room fn member) t defined
  obtain ⟨f, assigned⟩ := assignKnown
    (f := ⟨fn, entry.label, entry.instrs, blankRegs fn, firstBuffer⟩) args inside
  unfold Frame.enter at entered ⊢
  split
  · rfl
  · rename_i shallow
    simp only [if_neg shallow, blocks, count, params, ne_eq, not_true_eq_false, if_false,
      assigned] at entered ⊢
    exact ⟨(assignKeeps assigned).1, entered.gives f rfl⟩

theorem jumpSafe (runnable : p.Runnable) (runs : f.Runs p Closed code) (member : i ∈ code)
    (op : i.op = .br ∨ i.op = .cbr) {arm : Nat} (inside : arm < (if i.op = .br then 1 else 2)) :
    Safe (f.jump d i arm) fun f' => f'.fn = f.fn ∧ f'.Runs p Closed f'.rest := by
  have jumped : Ends False (f.jump d i arm) fun f' => f'.Runs p Closed f'.rest :=
    jumpRuns runs (blocksClosed runnable runs.fn)
  obtain ⟨targets, lists, each⟩ :=
    WellFormed.branchTargets (runs.sound runnable.wellFormed member) op
  have hasLabel : arm < i.labels.length := targets ▸ inside
  have hasArgs : arm < i.branchArgs.length := lists ▸ hasLabel
  have paired : (i.labels[arm], i.branchArgs[arm]) ∈ i.labels.zip i.branchArgs := by
    have both : arm < (i.labels.zip i.branchArgs).length := by
      rw [List.length_zip]
      omega
    exact List.getElem_zip (h := both) ▸ List.getElem_mem both
  obtain ⟨target, found, params⟩ := each _ _ paired
  obtain ⟨words, values, -⟩ := valuesKnown (d := d) fun id argument =>
    runs.argumentsInside runnable member (List.getElem_mem hasArgs) argument
  have block : target ∈ f.fn.blocks := List.mem_of_find?_eq_some found
  obtain ⟨f', assigned⟩ := assignKnown
    (f := { f with label := target.label, rest := target.instrs }) words
    fun t param => runs.reached runnable t (Function.memParams block param)
  have made : f.jump d i arm = .ok f' := by
    simp only [jump, List.getElem?_eq_getElem hasLabel, List.getElem?_eq_getElem hasArgs, found,
      params, values, assigned, orTrap, bind, Except.bind, ne_eq, not_true_eq_false, if_false]
  rw [made]
  exact ⟨(assignKeeps assigned).1, jumped.gives f' made⟩

end Frame

theorem FloatOp.someOperand (op : FloatOp) : 0 < op.operands := by cases op <;> decide

namespace Machine

variable {m : Machine} {f : Frame} {p : Program} {s : State} {i : Instr}
  {code after : List Instr} {n : Nat}

theorem deliverSafe {results : List Word} (count : results.length = i.results.length)
    (inside : ∀ t ∈ i.results, t.id.toNat < f.regs.size) :
    Safe (State.deliver f i results) fun f' => f'.fn = f.fn ∧ f'.regs.size = f.regs.size := by
  obtain ⟨f', assigned⟩ := Frame.assignKnown results inside
  obtain ⟨fn, -, size⟩ := Frame.assignKeeps assigned
  simp only [State.deliver, count, ne_eq, not_true_eq_false, if_false, assigned, Frame.orTrap]
  exact ⟨fn, size⟩

theorem defineSafe {w : Word} (one : i.results ≠ [])
    (inside : ∀ t ∈ i.results, t.id.toNat < f.regs.size) :
    Safe (f.define i w) fun f' => f'.fn = f.fn ∧ f'.regs.size = f.regs.size := by
  unfold Frame.define
  split
  · rename_i none
    exact absurd none one
  · rename_i t _ results
    have here : t.id.toNat < f.regs.size := inside t (results ▸ List.mem_cons_self)
    rw [Frame.write?, dif_pos here]
    exact ⟨rfl, Array.size_set here⟩

theorem loadResultsCount (d : FloatDomain) (types : List Ty) (bytes : List UInt8) :
    (loadResults d types bytes).length = types.length := by
  induction types generalizing bytes with
  | nil => rfl
  | cons t rest ih => rw [loadResults, List.length_cons, ih, List.length_cons]

theorem externSafe (op : i.op = .call) {e : Extern}
    (oneWay : e.sig.structReturnIndex? = none ∨ e.sig.returns = [])
    {args : List Word} (count : args.length = e.sig.params.length) {memory : Memory} :
    Safe (m.callExtern f i e args memory) fun r => r.1.length = e.sig.returns.length := by
  unfold callExtern
  split
  · rfl
  · rename_i routine _
    simp only
    split
    · exact (loadResultsCount _ _ _).trans (List.length_map _)
    · rename_i k found
      have returns : e.sig.returns = [] := oneWay.resolve_left (by rw [found]; nofun)
      obtain ⟨inside, -⟩ := List.findIdx?_eq_some_iff_getElem.mp found
      refine safeRead (List.getElem?_eq_getElem (count ▸ inside)) ?_
      refine safeTry (by simp [RunError.remains, op]) fun memory _ => ?_
      exact (congrArg List.length returns).symm

theorem computeSafe {d : FloatDomain} {typeOf? : Value → Option Ty} {words : List Word}
    (computes : i.op.category ≠ .memory ∧ i.op.category ≠ .call ∧ i.op.category ≠ .control)
    (operands : i.operands.length = i.op.minOperands)
    (count : words.length = i.op.minOperands) {cause : TrapCause}
    (stops : d.compute typeOf? i words = .error cause) : cause = .divisionByZero := by
  unfold FloatDomain.compute at stops
  split at stops <;> try cases stops
  · split at stops <;> cases stops
    rfl
  · rename_i op a rest isFloat
    split at stops <;> cases stops
    rename_i other
    have two : op.operands = 1 := by
      rw [isFloat] at count
      exact count.symm
    exact absurd two other
  · -- every arity leaves the operands and the words that the operation reads
    generalize i.operands = vs at *
    cases op : i.op <;> simp_all [Opcode.minOperands, Opcode.category]
    all_goals grind [cases List, FloatOp.someOperand]

theorem literalWord {d : FloatDomain} {v : Value} {k : Int64} (literal : v.intLiteral? = some k) :
    f.value? d v = some (Word.ofInt64 k) := by
  cases v with
  | int n =>
    cases literal
    rfl
  | bool b =>
    cases literal
    cases b <;> rfl
  | temp id => cases literal
  | float x => cases literal
  | null => cases literal

theorem stackaddrSafe (sound : WellFormed.instr? p s.frame.fn s.frame.fn.temps i = none)
    (op : i.op = .stackaddr) {words : List Word}
    (values : s.frame.values? m.domain (i.operands.take i.op.minOperands) = some words) :
    ∃ w, m.access s i words = .ok (some w, s.memory) := by
  obtain ⟨slot, offset, k, operands, literal, inside⟩ := WellFormed.slotNumber sound op
  simp only [op, operands, Frame.values?, Opcode.minOperands, List.take_succ_cons, List.take_zero,
    List.mapM_cons, List.mapM_nil, literalWord literal] at values
  cases read : s.frame.value? m.domain offset with
  | none => simp [read] at values
  | some w =>
    have shape : words = [Word.ofInt64 k, w] := by simpa [read] using values.symm
    have number : (Word.ofInt64 k).toInt64.toInt = k.toInt := rfl
    simp only [access, op, shape, slotAddress, number, inside, and_self, if_true]
    exact ⟨_, rfl⟩

theorem targetSafe {base offset : Word} :
    Safe (target f i base offset) fun _ => True := by
  unfold target
  split
  · rfl
  · trivial

theorem memorySafe {words : List Word} (op : i.op = .load ∨ i.op = .store)
    (count : words.length = i.op.minOperands) :
    Safe (m.access s i words) fun r => r.1.isSome = true → i.op.results = .one := by
  rcases op with op | op <;> rw [op] at count
  · match words, count with
    | [base, offset], _ =>
      simp only [access, op]
      refine safeBind targetSafe fun address _ => ?_
      refine safeBind (Q := fun _ => True) ?_ fun w _ _ => rfl
      unfold loadFrom
      simp only
      split
      · trivial
      · exact safeTry (by simp [RunError.remains, op]) fun bytes _ => trivial
  · match words, count with
    | [base, w, offset], _ =>
      simp only [access, op]
      refine safeBind targetSafe fun address _ => ?_
      refine safeBind (Q := fun _ => True) ?_ fun memory _ some => nomatch some
      unfold storeTo
      simp only
      split
      · trivial
      · cases memory : s.memory.write? address (m.domain.store i.type w) with
        | none => simp [Safe, Frame.orTrap, Frame.trap, RunError.remains, op]
        | some memory => trivial

theorem accessSafe (sound : WellFormed.instr? p s.frame.fn s.frame.fn.temps i = none)
    (plain : i.op.category ≠ .call ∧ i.op.category ≠ .control) {words : List Word}
    (values : s.frame.values? m.domain (i.operands.take i.op.minOperands) = some words)
    (count : words.length = i.op.minOperands) :
    Safe (m.access s i words) fun r => r.1.isSome = true → i.op.results = .one := by
  by_cases memory : i.op.category = .memory
  · have ops : i.op = .stackaddr ∨ i.op = .load ∨ i.op = .store := by
      revert memory
      cases i.op <;> simp [Opcode.category]
    rcases ops with op | op
    · obtain ⟨w, gives⟩ := stackaddrSafe sound op values
      rw [gives, op]
      exact fun _ => rfl
    · exact memorySafe op count
  · have one : i.op.results = .one := by
      revert memory plain
      cases i.op <;> simp [Opcode.category, Opcode.results]
    have fixed : i.op.maxOperands? = some i.op.minOperands := by
      revert plain
      cases i.op <;> simp [Opcode.category, Opcode.maxOperands?]
    unfold access
    split
    · rename_i op
      exact absurd (congrArg Opcode.category op) memory
    · rename_i op
      exact absurd (congrArg Opcode.category op) memory
    · rename_i op
      exact absurd (congrArg Opcode.category op) memory
    · split
      · exact fun _ => one
      · rename_i cause stops
        rw [computeSafe ⟨memory, plain⟩ (WellFormed.operandCount sound fixed) count stops]
        rfl

end Machine

/-- Frames that wait for a number of values, each with the call at the head of its code and a
caller of its own that waits for what its function returns; the last one gives the results of
the run. -/
inductive Waiting (p : Program) (results : Nat) : Nat → List Frame → Prop where
  | bottom : Waiting p results results []
  | call {f : Frame} {made : Instr} {after : List Instr} {callers : List Frame}
      (runs : f.Runs p Closed (made :: after)) (head : f.rest = made :: after)
      (op : made.op = .call) (next : Waiting p results f.fn.sig.returns.length callers) :
      Waiting p results made.results.length (f :: callers)

structure State.Sound (p : Program) (results : Nat) (s : State) : Prop where
  frame : s.frame.Runs p Closed s.frame.rest
  callers : Waiting p results s.frame.fn.sig.returns.length s.callers

def Progress.Sound (p : Program) (results : Nat) : Progress → Prop
  | .running s => s.Sound p results
  | .finished words => words.length = results

namespace Machine

variable {m : Machine} {s : State} {i : Instr} {after : List Instr} {n : Nat}

theorem soundAfter {f : Frame} {memory : Memory} (left : s.frame.Runs m.program Closed after)
    (callers : Waiting m.program n s.frame.fn.sig.returns.length s.callers)
    (kept : f.fn = s.frame.fn ∧ f.regs.size = s.frame.regs.size) :
    Progress.Sound m.program n
      (.running { s with frame := { f with rest := after }, memory := memory }) := by
  obtain ⟨fn, size⟩ := kept
  exact ⟨left.same fn size, fn ▸ callers⟩

theorem plainStepSafe (runnable : m.program.Runnable) (sound : s.Sound m.program n)
    (head : s.frame.rest = i :: after)
    (op : i.op.category ≠ .call ∧ i.op.category ≠ .control) :
    Safe (m.plain s i after) (Progress.Sound m.program n) := by
  have runs := head ▸ sound.frame
  have checks := runs.sound runnable.wellFormed List.mem_cons_self
  obtain ⟨fixed, goesOn⟩ := Opcode.plainShape op
  have count := WellFormed.operandCount checks fixed
  have left := runs.drop (runs.holds.tail goesOn)
  obtain ⟨words, values, wordCount⟩ := Frame.valuesKnown (d := m.domain)
    fun id operand => runs.operandsInside runnable List.mem_cons_self
      (List.mem_of_mem_take operand)
  rw [List.length_take, count, Nat.min_self] at wordCount
  unfold plain
  refine safeRead values ?_
  refine safeBind (accessSafe checks op values wordCount) ?_
  rintro ⟨w?, memory⟩ one
  cases w? with
  | none => exact soundAfter left sound.callers ⟨rfl, rfl⟩
  | some w =>
    obtain ⟨r, results, -⟩ := WellFormed.oneResult checks (one rfl)
    have given : i.results ≠ [] := results ▸ List.cons_ne_nil r []
    refine safeBind (defineSafe given
      (runs.resultsInside runnable List.mem_cons_self)) fun f kept => ?_
    exact soundAfter left sound.callers kept

theorem callStepSafe (runnable : m.program.Runnable) (sound : s.Sound m.program n)
    (head : s.frame.rest = i :: after) (op : i.op = .call) :
    Safe (m.call s i after) (Progress.Sound m.program n) := by
  have runs := head ▸ sound.frame
  obtain ⟨sig, callee, params, returns⟩ :=
    WellFormed.callCounts (runs.sound runnable.wellFormed List.mem_cons_self) op
  have left := runs.drop (runs.holds.tail (by rw [Instr.isTerminator, op]; rfl))
  obtain ⟨args, values, count⟩ := Frame.valuesKnown (d := m.domain)
    fun id operand => runs.operandsInside runnable List.mem_cons_self operand
  unfold call
  refine safeRead values ?_
  unfold Program.calleeSig? at callee
  cases named : m.program.functionNamed? i.callee with
  | some fn =>
    rw [named] at callee
    cases callee
    have member : fn ∈ m.program.functions := List.mem_of_find?_eq_some named
    refine safeBind (Frame.enterSafe runnable member (count.trans params.symm) _ _)
      fun callee ⟨same, entered⟩ => ?_
    refine ⟨entered, ?_⟩
    rw [same, returns]
    exact .call runs head op sound.callers
  | none =>
    rw [named] at callee
    obtain ⟨e, found, rfl⟩ := Option.map_eq_some_iff.mp callee
    have member : e ∈ m.program.externs := List.mem_of_find?_eq_some found
    simp only [found]
    refine safeBind (externSafe op (runnable.externs e member) (count.trans params.symm))
      fun ⟨results, memory⟩ given => ?_
    refine safeBind (deliverSafe (given.trans returns)
      (runs.resultsInside runnable List.mem_cons_self)) fun f kept => ?_
    exact soundAfter left sound.callers kept

theorem retStepSafe (runnable : m.program.Runnable) (sound : s.Sound m.program n)
    (head : s.frame.rest = i :: after) (op : i.op = .ret) :
    Safe (m.ret s i) (Progress.Sound m.program n) := by
  have runs := head ▸ sound.frame
  have returns := WellFormed.returnCount (runs.sound runnable.wellFormed List.mem_cons_self) op
  obtain ⟨results, values, count⟩ := Frame.valuesKnown (d := m.domain)
    fun id operand => runs.operandsInside runnable List.mem_cons_self operand
  unfold ret
  refine safeRead values ?_
  have waiting := sound.callers
  rw [← returns, ← count] at waiting
  generalize s.callers = callers at waiting
  generalize given : results.length = k at waiting
  cases waiting with
  | bottom => exact given
  | @call caller made rest callers waits head op next =>
    simp only [head]
    refine safeBind (deliverSafe given (waits.resultsInside runnable List.mem_cons_self))
      fun f ⟨fn, size⟩ => ?_
    have left := waits.drop (waits.holds.tail (by rw [Instr.isTerminator, op]; rfl))
    exact ⟨left.same fn size, fn ▸ next⟩

theorem branchStepSafe (runnable : m.program.Runnable) (sound : s.Sound m.program n)
    (head : s.frame.rest = i :: after) (op : i.op = .br ∨ i.op = .cbr) {arm : Nat}
    (inside : arm < (if i.op = .br then 1 else 2)) :
    Safe (do .ok (.running { s with frame := ← s.frame.jump m.domain i arm }))
      (Progress.Sound m.program n) := by
  have runs := head ▸ sound.frame
  refine safeBind (Frame.jumpSafe runnable runs List.mem_cons_self op inside)
    fun f ⟨fn, jumped⟩ => ?_
  exact ⟨jumped, fn ▸ sound.callers⟩

theorem stepSafe (runnable : m.program.Runnable) (sound : s.Sound m.program n)
    (head : s.frame.rest = i :: after) : Safe (m.step s i after) (Progress.Sound m.program n) := by
  unfold step
  split
  · exact callStepSafe runnable sound head ‹_›
  · exact retStepSafe runnable sound head ‹_›
  · rename_i op
    exact branchStepSafe runnable sound head (.inl op) (by rw [op]; decide)
  · rename_i op
    have runs := head ▸ sound.frame
    have checks := runs.sound runnable.wellFormed List.mem_cons_self
    have count := WellFormed.operandCount checks (by rw [op]; rfl)
    obtain ⟨v, rest, operands⟩ : ∃ v rest, i.operands = v :: rest := by
      rw [op] at count
      exact List.exists_cons_of_length_eq_add_one count
    obtain ⟨c, known⟩ := Frame.valueKnown (f := s.frame) (d := m.domain) (v := v) fun id same =>
      runs.operandsInside runnable List.mem_cons_self
        (by rw [operands, same]; exact List.mem_cons_self)
    refine safeRead (by rw [operands]; exact known) ?_
    refine branchStepSafe runnable sound head (.inr op) ?_
    rw [op]
    split <;> decide
  · rename_i call ret br cbr
    refine plainStepSafe runnable sound head ?_
    cases op : i.op <;> simp_all [Opcode.category]

theorem runSafe (runnable : m.program.Runnable) (allowed taken : Nat)
    (sound : s.Sound m.program n) : (m.runFrom allowed taken s).outcome.Expected n := by
  induction allowed generalizing s taken with
  | zero =>
    obtain ⟨i, after, head⟩ := sound.frame.holds.nonempty
    rw [runFrom.eq_def, head]
    rfl
  | succ left ih =>
    obtain ⟨i, after, head⟩ := sound.frame.holds.nonempty
    have safe := stepSafe runnable sound head
    rw [runFrom.eq_def, head]
    simp only
    cases stepped : m.step s i after with
    | error e =>
      rw [stepped] at safe
      exact safe
    | ok progress =>
      rw [stepped] at safe
      cases progress with
      | finished results => exact safe
      | running next => exact ih (taken + 1) safe

/-- Calling a function of a well-formed program with as many arguments as it has parameters
gives as many values as it declares, unless a limit, a missing binding or the words that it
works on stop the run. -/
theorem wellFormedRunsSafely (runnable : m.program.Runnable) {name : String} {f : Function}
    (named : m.program.functionNamed? name = some f) {args : List Word}
    (count : args.length = f.sig.params.length) (limit : StepLimit) :
    (m.runFunction limit name args).outcome.Expected f.sig.returns.length := by
  have member : f ∈ m.program.functions := List.mem_of_find?_eq_some named
  have entered := Frame.enterSafe runnable member count 0 0
  simp only [runFunction, enter, named]
  cases first : Frame.enter f args 0 0 with
  | error e =>
    rw [first] at entered
    exact entered
  | ok frame =>
    rw [first] at entered
    obtain ⟨rfl, runs⟩ := entered
    exact runSafe runnable _ _ ⟨runs, .bottom⟩

def quotientFunction : Function where
  name := "quotient"
  sig := .ofTypes [.i32, .i32] [.i32]
  blocks := [⟨"entry", [⟨0, .i32⟩, ⟨1, .i32⟩], [
    { Instr.blank (.int .sdiv) with
      type := .i32, results := [⟨2, .i32⟩], operands := [.temp 0, .temp 1] },
    { Instr.blank .ret with operands := [.temp 2] }]⟩]
  slots := []
  valueNames := []

def guardedFunction : Function where
  name := "guarded"
  sig := .ofTypes [.i32, .i32] [.i32]
  blocks := [
    ⟨"entry", [⟨0, .i32⟩, ⟨1, .i32⟩], [
      { Instr.blank (.icmp .eq) with
        type := .i1, results := [⟨2, .i1⟩], operands := [.temp 1, .int 0] },
      { Instr.blank .cbr with
        operands := [.temp 2], labels := ["done", "divide"], branchArgs := [[.temp 1], []] }]⟩,
    ⟨"divide", [], [
      { Instr.blank .call with
        callee := "quotient", results := [⟨3, .i32⟩], operands := [.temp 0, .temp 1] },
      { Instr.blank .br with labels := ["done"], branchArgs := [[.temp 3]] }]⟩,
    ⟨"done", [⟨4, .i32⟩], [{ Instr.blank .ret with operands := [.temp 4] }]⟩]
  slots := []
  valueNames := []

def quotientMachine : Machine := ⟨⟨[], [quotientFunction, guardedFunction]⟩, none, .ieee⟩

theorem quotientsRunSafely :
    quotientMachine.program.Runnable ∧
    (quotientMachine.runFunction .standard "guarded" [7, 2]).outcome.Expected 1 ∧
    (quotientMachine.runFunction .standard "quotient" [7, 0]).outcome.Expected 1 ∧
    (quotientMachine.runFunction .standard "guarded" [7, 2]).outcome = .returned [3] := by
  have runnable : quotientMachine.program.Runnable :=
    ⟨by decide +kernel, by decide +kernel, by decide⟩
  exact ⟨runnable,
    wellFormedRunsSafely (f := guardedFunction) runnable (by decide +kernel) (by decide) _,
    wellFormedRunsSafely (f := quotientFunction) runnable (by decide +kernel) (by decide) _,
    by decide +kernel⟩

end Machine
end FixedIL
