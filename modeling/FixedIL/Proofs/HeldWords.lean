import FixedIL.Proofs.Checks
import FixedIL.Proofs.FittingWords
import FixedIL.Proofs.Moves
import FixedIL.Proofs.PassSteps
import FixedIL.Proofs.SafeRuns

/-!
Registers that hold words allowed for their temporaries' types, whatever is allowed. Checks compare
types where a value goes from one temporary to another, so that a word which is allowed in its first
register is allowed in them all; what is left to know is what literals, loads and the instructions
that compute may bring in.
-/
namespace FixedIL

def Instr.flows (p : Program) (f : Function) (i : Instr) : List (Value × Ty) :=
  match i.op with
  | .select => (i.operands.drop 1).map fun v => (v, i.type)
  | .br | .cbr => (i.labels.zip i.branchArgs).flatMap fun (label, args) =>
    args.zip (((f.blockNamed? label).map fun b => b.params.map Temp.type).getD [])
  | .call => i.operands.zip (((p.calleeSig? i.callee).map fun sig => sig.params.map Slot.type).getD [])
  | .ret => i.operands.zip f.sig.returnTypes
  | _ => []

theorem Instr.branchFlows {p : Program} {f : Function} {i : Instr} (op : i.op = .br ∨ i.op = .cbr) :
    i.flows p f = (i.labels.zip i.branchArgs).flatMap fun (label, args) =>
      args.zip (((f.blockNamed? label).map fun b => b.params.map Temp.type).getD []) := by
  rcases op with op | op <;> simp only [flows, op]

namespace WellFormed

variable {p : Program} {f : Function} {i : Instr} {types : List Temp} {id : TempId} {t : Ty}

theorem typeDeclared (typed : hasType types (.temp id) t = true) (defined : ∃ u ∈ types, u.id = id) :
    ∃ u ∈ types, u.id = id ∧ u.type = t := by
  obtain ⟨u, member, same⟩ := defined
  have some : (types.find? fun u => u.id = id).isSome :=
    List.find?_isSome.mpr ⟨u, member, by simpa using same⟩
  obtain ⟨v, found⟩ := Option.isSome_iff_exists.mp some
  refine ⟨v, List.mem_of_find?_eq_some found, by simpa using List.find?_some found, ?_⟩
  simpa [hasType, satisfies, typeOf?, tempType?, found] using typed

theorem clashTyped {wanted : List (Value × Ty)} {fault : Fault}
    (none : firstClash types wanted fault = none) (member : (.temp id, t) ∈ wanted) :
    hasType types (.temp id) t = true :=
  List.all_eq_true.mp (requireNone.mp none) _ member

section Flows

variable (sound : instr? p f f.temps i = none)

include sound

theorem armTyped (op : i.op = .select) (flow : (.temp id, t) ∈ i.flows p f) :
    ∃ u ∈ f.temps, u.id = id ∧ u.type = t := by
  simp only [Instr.flows, op] at flow
  obtain ⟨v, arm, same⟩ := List.mem_map.mp flow
  cases same
  have member : .temp id ∈ i.operands := List.mem_of_mem_drop arm
  refine typeDeclared ?_ (operandAmongTemps sound member)
  simp only [instr?, op, orElseNone] at sound
  obtain ⟨-, -, -, -, values⟩ := sound
  obtain ⟨c, arms, operands⟩ := List.exists_cons_of_ne_nil (List.ne_nil_of_mem member)
  simp only [operands?, op, operands, orElseNone] at values
  rw [operands] at arm
  exact List.all_eq_true.mp (requireNone.mp values.2) _ arm

theorem argumentTyped (op : i.op = .br ∨ i.op = .cbr) (flow : (.temp id, t) ∈ i.flows p f) :
    ∃ u ∈ f.temps, u.id = id ∧ u.type = t := by
  rw [Instr.branchFlows op] at flow
  obtain ⟨⟨label, args⟩, branch, flow⟩ := List.mem_flatMap.mp flow
  have member : .temp id ∈ args := (List.of_mem_zip flow).1
  refine typeDeclared ?_ (argumentAmongTemps sound (List.of_mem_zip branch).2 member)
  simp only [instr?, orElseNone] at sound
  obtain ⟨-, -, -, -, checks⟩ := sound
  have branch' : branch? f f.temps i = none := by
    rcases op with op | op <;>
    · simp only [op, orElseNone] at checks
      exact checks.2
  have each := List.findSome?_eq_none_iff.mp (orElseNone.mp branch').2 (label, args) branch
  cases named : f.blockNamed? label with
  | none => simp [named] at each
  | some b =>
    simp only [named, orElseNone, Option.map_some, Option.getD_some] at each flow
    exact clashTyped each.2 flow

theorem operandTyped (op : i.op = .call) (flow : (.temp id, t) ∈ i.flows p f) :
    ∃ u ∈ f.temps, u.id = id ∧ u.type = t := by
  simp only [Instr.flows, op] at flow
  refine typeDeclared ?_ (operandAmongTemps sound (List.of_mem_zip flow).1)
  simp only [instr?, op, orElseNone, call?] at sound
  obtain ⟨-, -, -, -, call⟩ := sound
  cases callee : p.calleeSig? i.callee with
  | none => simp [callee] at call
  | some sig =>
    simp only [callee, orElseNone, Option.map_some, Option.getD_some] at call flow
    exact clashTyped call.2.2.1 flow

theorem resultTyped (op : i.op = .ret) (flow : (.temp id, t) ∈ i.flows p f) :
    ∃ u ∈ f.temps, u.id = id ∧ u.type = t := by
  simp only [Instr.flows, op] at flow
  refine typeDeclared ?_ (operandAmongTemps sound (List.of_mem_zip flow).1)
  simp only [instr?, op, orElseNone, return?] at sound
  exact clashTyped sound.2.2.2.2.2 flow

theorem floatArith {op : FloatOp} (isFloat : i.op = .float op) : i.type.isFloat = true := by
  simp only [instr?, operands?, isFloat, orElseNone] at sound
  exact requireNone.mp sound.2.2.2.2.1

theorem wholeArith {op : IntOp} (isInt : i.op = .int op) : i.type.isInteger = true := by
  simp only [instr?, operands?, isInt, orElseNone] at sound
  exact requireNone.mp sound.2.2.2.2.1

theorem definedType (op : i.op.category ≠ .call ∧ i.op.category ≠ .control) {r : Temp}
    (member : r ∈ i.results) : i.results = [r] ∧ r.type = i.type := by
  have arity : i.op.results = .one := by
    cases arity : i.op.results with
    | one => rfl
    | none =>
      rw [noResult sound arity] at member
      cases member
    | variadic => cases is : i.op <;> simp_all [Opcode.results, Opcode.category]
  obtain ⟨only, results, type⟩ := oneResult sound arity
  rw [results] at member
  obtain rfl := List.mem_singleton.mp member
  exact ⟨results, type⟩

theorem flowTyped (flow : (.temp id, t) ∈ i.flows p f) : ∃ u ∈ f.temps, u.id = id ∧ u.type = t := by
  cases op : i.op with
  | select => exact armTyped sound op flow
  | br => exact argumentTyped sound (.inl op) flow
  | cbr => exact argumentTyped sound (.inr op) flow
  | call => exact operandTyped sound op flow
  | ret => exact resultTyped sound op flow
  | _ =>
    simp only [Instr.flows, op] at flow
    cases flow

end Flows

end WellFormed

def Frame.HoldsOnly (allowed : Ty → Word → Prop) (f : Frame) : Prop :=
  ∀ t ∈ f.fn.temps, ∀ w, f.regs[t.id.toNat]? = some w → allowed t.type w

def State.HoldsOnly (allowed : Ty → Word → Prop) (s : State) : Prop :=
  ∀ f ∈ s.frame :: s.callers, f.HoldsOnly allowed

def Word.AllHeld (allowed : Ty → Word → Prop) (types : List Ty) (words : List Word) : Prop :=
  ∀ pair ∈ types.zip words, allowed pair.1 pair.2

structure Machine.Keeps (m : Machine) (allowed : Ty → Word → Prop) : Prop where
  blank : ∀ t, allowed t 0
  loads : ∀ t bytes, allowed t (m.domain.load t bytes)
  literals : ∀ f ∈ m.program.functions, ∀ i ∈ f.code, ∀ flow ∈ i.flows m.program f,
    flow.1.isTemp = false → ∀ (g : Frame) w, g.value? m.domain flow.1 = some w → allowed flow.2 w

namespace Frame

variable {f f' : Frame} {d : FloatDomain} {p : Program} {i : Instr} {v : Value} {t : Ty} {w : Word}
  {allowed : Ty → Word → Prop}

theorem valuesCons {vs : List Value} {words : List Word}
    (values : f.values? d (v :: vs) = some words) :
    ∃ w ws, words = w :: ws ∧ f.value? d v = some w ∧ f.values? d vs = some ws := by
  rw [values?, List.mapM_cons] at values
  obtain ⟨w, first, values⟩ := Option.bind_eq_some_iff.mp values
  obtain ⟨ws, others, same⟩ := Option.bind_eq_some_iff.mp values
  cases same
  exact ⟨w, ws, rfl, first, others⟩

theorem valueHeld (holds : f.HoldsOnly allowed)
    (typed : ∀ id, v = .temp id → ∃ u ∈ f.fn.temps, u.id = id ∧ u.type = t)
    (literal : v.isTemp = false → ∀ (g : Frame) w, g.value? d v = some w → allowed t w)
    (held : f.value? d v = some w) : allowed t w := by
  cases v with
  | temp id =>
    obtain ⟨u, declared, rfl, rfl⟩ := typed id rfl
    exact holds u declared w held
  | _ => exact literal rfl f w held

theorem assignHeld {t : Temp} (assigned : f.assign? [t] [w] = some f') :
    f'.regs[t.id.toNat]? = some w := by
  have written : f.write? t.id w = some f' := by simpa [assign?] using assigned
  obtain ⟨room, rfl⟩ := writePut written
  exact putSame room w

theorem valuesHeld (holds : f.HoldsOnly allowed) {vs : List Value} {types : List Ty} {words : List Word}
    (each : ∀ flow ∈ vs.zip types,
      (∀ id, flow.1 = .temp id → ∃ u ∈ f.fn.temps, u.id = id ∧ u.type = flow.2) ∧
      (flow.1.isTemp = false → ∀ (g : Frame) w, g.value? d flow.1 = some w → allowed flow.2 w))
    (values : f.values? d vs = some words) : Word.AllHeld allowed types words := by
  induction vs generalizing types words with
  | nil =>
    have none : words = [] := by simpa [values?] using values.symm
    rw [none, Word.AllHeld, List.zip_nil_right]
    exact List.forall_mem_nil _
  | cons v vs ih =>
    obtain ⟨w, ws, rfl, first, others⟩ := valuesCons values
    cases types with
    | nil => exact List.forall_mem_nil _
    | cons t types =>
      obtain ⟨⟨typed, literal⟩, rest⟩ := List.forall_mem_cons.mp each
      exact List.forall_mem_cons.mpr ⟨valueHeld holds typed literal first, ih rest others⟩

theorem writeHolds (holds : f.HoldsOnly allowed) (once : f.fn.DefinesOnce) {t : Temp}
    (declared : t ∈ f.fn.temps) (own : allowed t.type w) (written : f.write? t.id w = some f') :
    f'.HoldsOnly allowed := by
  obtain ⟨room, rfl⟩ := writePut written
  intro u member word held
  by_cases same : u.id = t.id
  · have type : u.type = t.type := by
      rw [← Function.tempTypeOnce once member, same, Function.tempTypeOnce once declared]
    rw [same, putSame room] at held
    cases held
    rw [type]
    exact own
  · rw [putOther f same] at held
    exact holds u member word held

theorem assignHolds (holds : f.HoldsOnly allowed) (once : f.fn.DefinesOnce) {ts : List Temp}
    {words : List Word} (declared : ∀ t ∈ ts, t ∈ f.fn.temps)
    (held : Word.AllHeld allowed (ts.map Temp.type) words) (assigned : f.assign? ts words = some f') :
    f'.HoldsOnly allowed := by
  induction ts generalizing f words with
  | nil =>
    cases assigned
    exact holds
  | cons t ts ih =>
    cases words with
    | nil =>
      cases assigned
      exact holds
    | cons w words =>
      obtain ⟨mid, written, others⟩ := Option.bind_eq_some_iff.mp assigned
      obtain ⟨own, rest⟩ := List.forall_mem_cons.mp declared
      obtain ⟨first, held⟩ := List.forall_mem_cons.mp held
      have same : mid.fn = f.fn := by
        rw [(writePut written).2]
        rfl
      exact ih (writeHolds holds once own first written) (same ▸ once) (same ▸ rest) held others

theorem enterHolds {fn : Function} {args : List Word} {depth firstBuffer : Nat}
    (blank : ∀ t, allowed t 0) (sound : fn.violation? p = none)
    (held : Word.AllHeld allowed (fn.sig.params.map Slot.type) args)
    (entered : Frame.enter fn args depth firstBuffer = .ok f) : f.HoldsOnly allowed := by
  obtain ⟨entry, rest, blocks, count, assigned⟩ := enterOk entered
  have empty : HoldsOnly allowed ⟨fn, entry.label, entry.instrs, blankRegs fn, firstBuffer⟩ := by
    intro t declared w held
    rw [blankZero held]
    exact blank t.type
  have types : entry.params.map Temp.type = fn.sig.params.map Slot.type :=
    WellFormed.entryTypes sound blocks
  refine assignHolds empty (WellFormed.definesOnce sound) (fun t param => ?_) (types ▸ held) assigned
  exact Function.memParams (blocks ▸ List.mem_cons_self) param

end Frame

namespace Machine

variable {m : Machine} {s start next final : State} {i : Instr} {after : List Instr} {n : Nat}
  {name : String} {args words : List Word} {w : Word} {memory : Memory} {allowed : Ty → Word → Prop}

theorem loadResultsHeld {d : FloatDomain} (loads : ∀ t bytes, allowed t (d.load t bytes))
    (types : List Ty) (bytes : List UInt8) :
    Word.AllHeld allowed types (loadResults d types bytes) := by
  induction types generalizing bytes with
  | nil => exact List.forall_mem_nil _
  | cons t types ih => exact List.forall_mem_cons.mpr ⟨loads t _, ih _⟩

theorem externHeld {f : Frame} {e : Extern} {results : List Word} {memory' : Memory}
    (loads : ∀ t bytes, allowed t (m.domain.load t bytes))
    (given : m.callExtern f i e args memory = .ok (results, memory')) :
    Word.AllHeld allowed e.sig.returnTypes results := by
  unfold callExtern at given
  split at given
  · cases given
  · simp only at given
    split at given
    · cases given
      exact loadResultsHeld loads _ _
    · obtain ⟨address, -, given⟩ := boundOk given
      obtain ⟨memory'', -, same⟩ := boundOk given
      cases same
      rw [Word.AllHeld, List.zip_nil_right]
      exact List.forall_mem_nil _

theorem accessMakes (access : m.access s i words = .ok (some w, memory)) :
    i.op = .stackaddr ∨ (∃ bytes, w = m.domain.load i.type bytes) ∨
      m.domain.compute s.frame.typeOf? i words = .ok w := by
  unfold Machine.access at access
  split at access
  · exact .inl ‹_›
  · obtain ⟨address, -, access⟩ := boundOk access
    obtain ⟨loaded, load, same⟩ := boundOk access
    cases same
    unfold loadFrom at load
    simp only at load
    split at load
    · cases load
      exact .inr (.inl ⟨_, rfl⟩)
    · obtain ⟨bytes, -, same⟩ := boundOk load
      cases same
      exact .inr (.inl ⟨_, rfl⟩)
  · obtain ⟨address, -, access⟩ := boundOk access
    obtain ⟨memory', -, same⟩ := boundOk access
    cases same
  · split at access
    · rename_i computed
      cases access
      exact .inr (.inr computed)
    · cases access

section Steps

variable (wellFormed : m.program.WellFormed) (keeps : m.Keeps allowed)

include wellFormed keeps

theorem flowsHeld {P : List Instr → Prop} {f : Frame} (runs : f.Runs m.program P (i :: after)) :
    ∀ flow ∈ i.flows m.program f.fn,
      (∀ id, flow.1 = .temp id → ∃ u ∈ f.fn.temps, u.id = id ∧ u.type = flow.2) ∧
      (flow.1.isTemp = false → ∀ (g : Frame) w, g.value? m.domain flow.1 = some w →
        allowed flow.2 w) := by
  intro ⟨v, t⟩ flow
  refine ⟨fun id same => ?_, keeps.literals f.fn runs.fn i (runs.inside List.mem_cons_self) _ flow⟩
  cases same
  exact WellFormed.flowTyped (runs.sound wellFormed List.mem_cons_self) flow

theorem selectArmsHeld {f : Frame} {P : List Instr → Prop} (holds : f.HoldsOnly allowed)
    (runs : f.Runs m.program P (i :: after)) (op : i.op = .select)
    (values : f.values? m.domain (i.operands.take i.op.minOperands) = some words) :
    ∀ a ∈ words.drop 1, allowed i.type a := by
  have each := flowsHeld wellFormed keeps runs
  have sound := runs.sound wellFormed List.mem_cons_self
  have count := WellFormed.operandCount sound (by rw [op]; rfl)
  rw [op] at count values
  match operands : i.operands, count with
  | [c, x, y], _ =>
    rw [operands] at values
    obtain ⟨k, rest, rfl, -, values⟩ := Frame.valuesCons values
    obtain ⟨a, rest, rfl, first, values⟩ := Frame.valuesCons values
    obtain ⟨b, rest, rfl, second, values⟩ := Frame.valuesCons values
    have none : rest = [] := by simpa [Frame.values?] using values.symm
    simp only [Instr.flows, op, operands] at each
    obtain ⟨⟨typed, literal⟩, each⟩ := List.forall_mem_cons.mp each
    obtain ⟨⟨typed', literal'⟩, -⟩ := List.forall_mem_cons.mp each
    rw [none]
    refine List.forall_mem_cons.mpr ⟨Frame.valueHeld holds typed literal first, ?_⟩
    exact List.forall_mem_cons.mpr
      ⟨Frame.valueHeld holds typed' literal' second, List.forall_mem_nil _⟩

theorem enteredHolds {P : List Instr → Prop} {fn : Function} {callee : Frame}
    {depth firstBuffer : Nat} (op : i.op = .call) (holds : s.frame.HoldsOnly allowed)
    (runs : s.frame.Runs m.program P (i :: after))
    (values : s.frame.values? m.domain i.operands = some args)
    (named : m.program.functionNamed? i.callee = some fn)
    (entered : Frame.enter fn args depth firstBuffer = .ok callee) : callee.HoldsOnly allowed := by
  have each := flowsHeld wellFormed keeps runs
  have sig : m.program.calleeSig? i.callee = some fn.sig := by rw [Program.calleeSig?, named]
  simp only [Instr.flows, op, sig, Option.map_some, Option.getD_some] at each
  have member : fn ∈ m.program.functions := List.mem_of_find?_eq_some named
  exact Frame.enterHolds keeps.blank (WellFormed.noViolation wellFormed member)
    (Frame.valuesHeld holds each values) entered

theorem jumpedHolds {P : List Instr → Prop} {f : Frame} {arm : Nat} (op : i.op = .br ∨ i.op = .cbr)
    (holds : s.frame.HoldsOnly allowed) (runs : s.frame.Runs m.program P (i :: after))
    (jumped : s.frame.jump m.domain i arm = .ok f) : f.HoldsOnly allowed := by
  obtain ⟨label, args, target, words, hasLabel, hasArgs, named, -, values, assigned⟩ :=
    Frame.jumpOk jumped
  have each := flowsHeld wellFormed keeps runs
  have branch : (label, args) ∈ i.labels.zip i.branchArgs :=
    List.mem_of_getElem? (List.getElem?_zip_eq_some.mpr ⟨hasLabel, hasArgs⟩)
  have held : Word.AllHeld allowed (target.params.map Temp.type) words := by
    refine Frame.valuesHeld holds (fun flow member => each flow ?_) values
    rw [Instr.branchFlows op]
    refine List.mem_flatMap.mpr ⟨_, branch, ?_⟩
    simpa only [named, Option.map_some, Option.getD_some] using member
  have block : target ∈ s.frame.fn.blocks := List.mem_of_find?_eq_some named
  have moved : Frame.HoldsOnly allowed
    { s.frame with label := target.label, rest := target.instrs } := holds
  exact Frame.assignHolds moved (runs.once wellFormed) (fun t => Function.memParams block) held
    assigned

omit keeps in
theorem deliveredHolds {P : List Instr → Prop} {f f' : Frame} {sig : Signature}
    {results : List Word} (op : i.op = .call) (holds : f.HoldsOnly allowed)
    (runs : f.Runs m.program P (i :: after)) (callee : m.program.calleeSig? i.callee = some sig)
    (held : Word.AllHeld allowed sig.returnTypes results)
    (assigned : f.assign? i.results results = some f') : f'.HoldsOnly allowed := by
  obtain ⟨sig', callee', types⟩ :=
    WellFormed.callTypes (runs.sound wellFormed List.mem_cons_self) op
  obtain rfl := Option.some.inj (callee.symm.trans callee')
  exact Frame.assignHolds holds (runs.once wellFormed) (runs.declared List.mem_cons_self)
    (types ▸ held) assigned

omit keeps in
theorem definedHolds {P : List Instr → Prop} {f : Frame} {t : Temp} {rest : List Temp}
    (holds : s.frame.HoldsOnly allowed) (runs : s.frame.Runs m.program P (i :: after))
    (results : i.results = t :: rest) (own : allowed t.type w)
    (assigned : s.frame.assign? [t] [w] = some f) : f.HoldsOnly allowed := by
  have member : t ∈ i.results := results ▸ List.mem_cons_self
  have declared : ∀ u ∈ [t], u ∈ s.frame.fn.temps :=
    List.forall_mem_singleton.mpr (runs.declared List.mem_cons_self t member)
  have held : Word.AllHeld allowed [t.type] [w] := List.forall_mem_singleton.mpr own
  exact Frame.assignHolds holds (runs.once wellFormed) declared held assigned

theorem heldStep (linked : s.Linked m.program) (holds : s.HoldsOnly allowed)
    (head : s.frame.rest = i :: after) (stepped : m.step s i after = .ok (.running next))
    (makes : ∀ words w memory t rest, i.op.category ≠ .call ∧ i.op.category ≠ .control →
      s.frame.values? m.domain (i.operands.take i.op.minOperands) = some words →
      m.access s i words = .ok (some w, memory) → i.results = t :: rest →
      next.frame.regs[t.id.toNat]? = some w → allowed t.type w) : next.HoldsOnly allowed := by
  have runs := head ▸ linked.frame
  obtain ⟨own, waiting⟩ := List.forall_mem_cons.mp holds
  cases stepMoves stepped with
  | keep => exact List.forall_mem_cons.mpr ⟨own, waiting⟩
  | define op values access results assigned =>
    have written := Frame.assignHeld assigned
    have made := makes _ _ _ _ _ op values access results written
    have defined := definedHolds wellFormed own runs results made assigned
    exact List.forall_mem_cons.mpr ⟨defined, waiting⟩
  | enter op values named entered =>
    refine List.forall_mem_cons.mpr ⟨?_, List.forall_mem_cons.mpr ⟨own, waiting⟩⟩
    exact enteredHolds wellFormed keeps op own runs values named entered
  | @native _ _ e _ _ op unnamed named given count assigned =>
    have callee : m.program.calleeSig? i.callee = some e.sig := by
      rw [Program.calleeSig?, unnamed, named]
      rfl
    have delivered :=
      deliveredHolds wellFormed op own runs callee (externHeld keeps.loads given) assigned
    exact List.forall_mem_cons.mpr ⟨delivered, waiting⟩
  | ret op values callers waits count assigned =>
    -- The call that waits was checked against the signature that the returned values were held to.
    have awaits := linked.callers
    rw [callers] at awaits waiting
    obtain ⟨under, waiting⟩ := List.forall_mem_cons.mp waiting
    have each := flowsHeld wellFormed keeps runs
    simp only [Instr.flows, op] at each
    cases awaits with
    | @call _ _ made _ _ callerRuns head' call named below =>
      have callee : m.program.calleeSig? made.callee = some s.frame.fn.sig := by
        rw [Program.calleeSig?, named]
      rw [← (List.cons.inj (head'.symm.trans waits)).1] at assigned
      have held := Frame.valuesHeld own each values
      have delivered := deliveredHolds wellFormed call under callerRuns callee held assigned
      exact List.forall_mem_cons.mpr ⟨delivered, waiting⟩
  | jump op jumped =>
    refine List.forall_mem_cons.mpr ⟨?_, waiting⟩
    exact jumpedHolds wellFormed keeps op own runs jumped

omit keeps in
theorem startHolds (blank : ∀ t, allowed t 0) {fn : Function}
    (named : m.program.functionNamed? name = some fn)
    (held : Word.AllHeld allowed (fn.sig.params.map Slot.type) args)
    (begins : m.enter name args = .ok start) : start.HoldsOnly allowed := by
  obtain ⟨fn', named', entered, none⟩ := startOk begins
  obtain rfl := Option.some.inj (named.symm.trans named')
  have member : fn ∈ m.program.functions := List.mem_of_find?_eq_some named
  rw [State.HoldsOnly, none]
  refine List.forall_mem_singleton.mpr ?_
  exact Frame.enterHolds blank (WellFormed.noViolation wellFormed member) held entered

end Steps

end Machine
end FixedIL
