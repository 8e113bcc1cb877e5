import FixedIL.Proofs.EncodedFloats
import FixedIL.Proofs.LoweredFunction

/-!
Programs with more frame slots. Lowering adds slots for the results of native calls; with the same
slots ahead of lowering the frames of both runs lie at the same addresses, and nothing else changes.
-/
namespace FixedIL

def Function.withSlots (f : Function) (slots : List FrameSlot) : Function := { f with slots := slots }

def Program.withSlotsOf (p p' : Program) : Program :=
  { p with functions := List.zipWith (fun f f' => f.withSlots f'.slots) p.functions p'.functions }

namespace Program

variable {p p' : Program} {R : Function → Function → Prop} {name : String} {g : Function}

theorem withSlotsMem (related : List.Forall₂ R p.functions p'.functions)
    (member : g ∈ (p.withSlotsOf p').functions) :
    ∃ f ∈ p.functions, ∃ f' ∈ p'.functions, R f f' ∧ g = f.withSlots f'.slots := by
  rw [withSlotsOf] at member
  generalize p.functions = fs, p'.functions = fs' at *
  induction related with
  | nil => cases member
  | @cons f f' fs fs' head tail ih =>
    rcases List.mem_cons.mp member with rfl | member
    · exact ⟨f, List.mem_cons_self, f', List.mem_cons_self, head, rfl⟩
    · obtain ⟨f, first, f', second, both, same⟩ := ih member
      exact ⟨f, List.mem_cons_of_mem _ first, f', List.mem_cons_of_mem _ second, both, same⟩

theorem withSlotsNamed (related : List.Forall₂ R p.functions p'.functions)
    (names : ∀ f f', R f f' → f'.name = f.name) (name : String) :
    (p.functionNamed? name = none ∧ p'.functionNamed? name = none ∧
      (p.withSlotsOf p').functionNamed? name = none) ∨
    ∃ f f', R f f' ∧ p.functionNamed? name = some f ∧ p'.functionNamed? name = some f' ∧
      (p.withSlotsOf p').functionNamed? name = some (f.withSlots f'.slots) := by
  unfold functionNamed? withSlotsOf
  generalize p.functions = fs, p'.functions = fs' at *
  induction related with
  | nil => exact .inl ⟨rfl, rfl, rfl⟩
  | @cons f f' fs fs' head tail ih =>
    have slotted : (f.withSlots f'.slots).name = f.name := rfl
    rw [List.zipWith_cons_cons]
    simp only [List.find?_cons, slotted, names f f' head]
    by_cases own : f.name = name
    · simp only [own, decide_true]
      exact .inr ⟨f, f', head, rfl, rfl, rfl⟩
    · simp only [own, decide_false]
      exact ih

theorem withSlotsSig (related : List.Forall₂ R p.functions p'.functions)
    (names : ∀ f f', R f f' → f'.name = f.name) (name : String) :
    (p.withSlotsOf p').calleeSig? name = p.calleeSig? name := by
  unfold calleeSig?
  rcases withSlotsNamed related names name with ⟨none, -, none'⟩ | ⟨f, f', -, named, -, named'⟩
  · rw [none, none']
    rfl
  · rw [named, named']
    rfl

theorem withSlotsSymbols (related : List.Forall₂ R p.functions p'.functions) :
    (p.withSlotsOf p').symbols = p.symbols := by
  have names : (p.withSlotsOf p').functions.map Function.name = p.functions.map Function.name := by
    unfold withSlotsOf
    generalize p.functions = fs, p'.functions = fs' at *
    induction related with
    | nil => rfl
    | cons head tail ih => exact congrArg (List.cons _) ih
  rw [symbols, names]
  rfl

end Program

namespace WellFormed

variable {p q : Program} {f : Function} {slots : List FrameSlot} {types : List Temp} {i : Instr}
  {b : Block} {label : String} {is : List Instr}

theorem operandsWider (wider : f.slots.length ≤ slots.length)
    (sound : operands? f types i = none) : operands? (f.withSlots slots) types i = none := by
  unfold operands?
  split
  case h_7 op slot rest is values =>
    simp only [operands?, is, values] at sound
    have number := requireNone.mp sound
    refine requireNone.mpr ?_
    cases literal : slot.intLiteral? with
    | none => simp [literal] at number
    | some n =>
      simp only [literal, Option.any_some, Bool.and_eq_true, decide_eq_true_eq] at number ⊢
      exact ⟨number.1, Int.lt_of_lt_of_le number.2 (Int.ofNat_le.mpr wider)⟩
  case h_8 => rfl
  all_goals
    simp only [operands?, *] at sound
    exact sound

section Wider

variable (wider : f.slots.length ≤ slots.length)
  (sigs : ∀ name, q.calleeSig? name = p.calleeSig? name)

include wider sigs

theorem instrWider (sound : instr? p f types i = none) :
    instr? q (f.withSlots slots) types i = none := by
  simp only [instr?, orElseNone] at sound ⊢
  obtain ⟨count, results, operands, args, sound⟩ := sound
  refine ⟨count, results, operands, args, ?_⟩
  split at sound
  · exact sound
  · exact sound
  · exact sound
  · rw [call?, sigs]
    exact sound
  · exact operandsWider wider sound

theorem instrsWider (sound : instrs? p f types label is = none) :
    instrs? q (f.withSlots slots) types label is = none := by
  induction is with
  | nil => rfl
  | cons i is ih =>
    obtain ⟨head, tail⟩ := orElseNone.mp sound
    obtain ⟨early, own⟩ := orElseNone.mp (Option.map_eq_none_iff.mp head)
    refine orElseNone.mpr ⟨Option.map_eq_none_iff.mpr (orElseNone.mpr ⟨early, ?_⟩), ih tail⟩
    exact instrWider wider sigs own

theorem violationWider (sound : f.violation? p = none) :
    (f.withSlots slots).violation? q = none := by
  obtain ⟨header, sound⟩ := orElseNone.mp sound
  obtain ⟨definitions, blocks⟩ := orElseNone.mp sound
  refine orElseNone.mpr ⟨header, orElseNone.mpr ⟨definitions, ?_⟩⟩
  refine List.findSome?_eq_none_iff.mpr fun b member => ?_
  obtain ⟨closed, instrs⟩ := orElseNone.mp (List.findSome?_eq_none_iff.mp blocks b member)
  exact orElseNone.mpr ⟨closed, instrsWider wider sigs instrs⟩

end Wider

end WellFormed

namespace Program

open WellFormed

variable {p p' : Program} {R : Function → Function → Prop}

section Wider

variable (related : List.Forall₂ R p.functions p'.functions)
  (names : ∀ f f', R f f' → f'.name = f.name)

include related names

theorem withSlotsRunnable (wider : ∀ f f', R f f' → f.slots <+: f'.slots) (runnable : p.Runnable) :
    (p.withSlotsOf p').Runnable := by
  refine ⟨?_, fun g member => ?_, runnable.externs⟩
  · obtain ⟨symbols, -⟩ := orElseNone.mp runnable.wellFormed
    refine orElseNone.mpr ⟨?_, Option.map_eq_none_iff.mpr ?_⟩
    · rw [withSlotsSymbols related]
      exact symbols
    · refine List.findSome?_eq_none_iff.mpr fun g member => ?_
      obtain ⟨f, source, f', -, both, rfl⟩ := withSlotsMem related member
      exact WellFormed.violationWider (wider f f' both).length_le (withSlotsSig related names)
        (WellFormed.noViolation runnable.wellFormed source)
  · obtain ⟨f, source, f', -, -, rfl⟩ := withSlotsMem related member
    exact runnable.room f source

theorem withSlotsFlows {f : Function} {slots : List FrameSlot} (i : Instr) :
    i.flows (p.withSlotsOf p') (f.withSlots slots) = i.flows p f := by
  unfold Instr.flows
  rw [withSlotsSig related names]
  rfl

theorem withSlotsTyped (typed : p.Typed) : (p.withSlotsOf p').Typed := by
  intro g member i instr
  obtain ⟨f, source, f', -, -, rfl⟩ := withSlotsMem related member
  obtain ⟨yields, flows, numbers, integers⟩ := typed f source i instr
  refine ⟨yields, ?_, numbers, integers⟩
  rw [withSlotsFlows related names]
  exact flows

end Wider

end Program

/-- In the reference domain a register holds a value of its temporary's type, or its encoding. -/
def Word.Stores (t : Ty) (w : Word) : Prop := w.Fits t.stored

theorem Frame.HoldsOnly.temp {f : Frame} (holds : f.HoldsOnly Word.Stores) (once : f.fn.DefinesOnce)
    {id : TempId} (declared : ∃ t ∈ f.fn.temps, t.id = id) {w : Word}
    (held : f.regs[id.toNat]? = some w) : w.Fits (Frame.tempType f.fn id).stored := by
  obtain ⟨t, member, rfl⟩ := declared
  rw [Function.tempTypeOnce once member]
  exact holds t member w held

namespace Machine

variable {m : Machine} {s start next final : State} {i : Instr} {after : List Instr} {n : Nat}
  {words : List Word} {w : Word} {memory : Memory} {name : String} {args : List Word}

theorem encodedKeeps (domain : m.domain = .encoded) (typed : m.program.Typed) :
    m.Keeps Word.Stores where
  blank t := Word.fitsZero t.stored
  loads t bytes := by
    rw [domain, FloatDomain.encodedLoad]
    exact FloatDomain.loadFits _ _ _
  literals f member i code flow among plain _ _ held :=
    Value.suitsHeld ((typed f member i code).flows flow among) plain (domain ▸ held)

section Steps

variable (wellFormed : m.program.WellFormed) (domain : m.domain = .encoded)
  (typed : m.program.Typed)

include wellFormed domain typed

theorem numbersHeld {P : List Instr → Prop} {f : Frame} (holds : f.HoldsOnly Word.Stores)
    (runs : f.Runs m.program P (i :: after)) (reads : i.op.readsNumbers = true)
    {vs : List Value} (among : ∀ v ∈ vs, v ∈ i.operands) (values : f.values? m.domain vs = some words) :
    ∀ w ∈ words, w.Fits .i32 := by
  have numbers := (typed f.fn runs.fn i (runs.inside List.mem_cons_self)).numbers reads
  have sound := runs.sound wellFormed List.mem_cons_self
  induction vs generalizing words with
  | nil =>
    have none : words = [] := by simpa [Frame.values?] using values.symm
    rw [none]
    exact List.forall_mem_nil _
  | cons v vs ih =>
    obtain ⟨w, ws, rfl, first, others⟩ := Frame.valuesCons values
    obtain ⟨here, rest⟩ := List.forall_mem_cons.mp among
    refine List.forall_mem_cons.mpr ⟨?_, ih rest others⟩
    rw [domain] at first
    refine Value.numberHeld (numbers v here) (fun id same w held => ?_) first
    exact holds.temp (runs.once wellFormed)
      (WellFormed.operandAmongTemps sound (same ▸ here)) held

theorem computedStores {P : List Instr → Prop} {t : Temp} {rest : List Temp}
    (op : i.op.category ≠ .call ∧ i.op.category ≠ .control) (holds : s.frame.HoldsOnly Word.Stores)
    (runs : s.frame.Runs m.program P (i :: after))
    (values : s.frame.values? m.domain (i.operands.take i.op.minOperands) = some words)
    (access : m.access s i words = .ok (some w, memory)) (results : i.results = t :: rest) :
    Word.Stores t.type w := by
  have sound := runs.sound wellFormed List.mem_cons_self
  have own := typed s.frame.fn runs.fn i (runs.inside List.mem_cons_self)
  obtain ⟨-, type⟩ := WellFormed.definedType sound op (results ▸ List.mem_cons_self)
  rw [Word.Stores, type]
  rcases accessMakes access with is | ⟨bytes, rfl⟩ | computed
  · have type : i.type = .ptr := by simpa [is, Opcode.yields] using own.yields
    rw [type]
    exact trivial
  · exact (encodedKeeps domain typed).loads i.type bytes
  · rw [domain] at computed
    have arms (is : i.op = .select) := selectArmsHeld wellFormed (encodedKeeps domain typed) holds
      runs is values
    exact FloatDomain.encodedFits own.yields (fun _ => WellFormed.floatArith sound)
      (fun _ => WellFormed.wholeArith sound) arms
      (fun reads => numbersHeld wellFormed domain typed holds runs reads
        (fun _ => List.mem_of_mem_take) values) computed

theorem storesStep (linked : s.Linked m.program) (holds : s.HoldsOnly Word.Stores)
    (head : s.frame.rest = i :: after) (stepped : m.step s i after = .ok (.running next)) :
    next.HoldsOnly Word.Stores :=
  heldStep wellFormed (encodedKeeps domain typed) linked holds head stepped
    fun _ _ _ _ _ op values access results _ =>
      computedStores wellFormed domain typed op (holds s.frame List.mem_cons_self)
        (head ▸ linked.frame) values access results

theorem storesReaches {fn : Function} (named : m.program.functionNamed? name = some fn)
    (held : Word.AllHeld Word.Stores (fn.sig.params.map Slot.type) args)
    (begins : m.enter name args = .ok start) (path : m.Reaches n start final) :
    final.HoldsOnly Word.Stores := by
  have linked := startLinked begins
  have first : start.HoldsOnly Word.Stores :=
    startHolds wellFormed (encodedKeeps domain typed).blank named held begins
  exact reachesKeeps path first fun _ _ _ _ _ way head stepped sofar =>
    storesStep wellFormed domain typed (linkedReaches linked way) sofar head stepped

end Steps

end Machine
end FixedIL
