import FixedIL.Proofs.LoweredCalls
import FixedIL.Proofs.LoweredTypes
import FixedIL.Proofs.ReferencePrograms

/-!
The types of temporaries behind lowering. A temporary that is no cast keeps its id, and is given the
type that the encoding of its value is held at.
-/
namespace FixedIL.Lowering

open Emit

def DeclaresBuiltins (c : Config) (p : Program) : Prop :=
  ∀ e ∈ p.externs, ∀ hit, c.registry.findSymbol? e.name = some hit →
    e.sig.mapTypes Ty.stored = hit.descriptor.prototype.flatten .fixedPoint

variable {c : Config} {p : Program} {f f' : Function} {i : Instr} {t t' : Temp} {callee : String}
  {target : CallTarget} {sig : Signature} {externs : List Extern}

theorem floatFreeStored {sig : Signature} (free : sig.mentionsFloat = false) :
    sig.mapTypes Ty.stored = sig := by
  simp only [Signature.mentionsFloat, Bool.or_eq_false_iff, List.any_eq_false,
    Bool.not_eq_true] at free
  have kept (slots : List Slot) (plain : ∀ s ∈ slots, s.type.isFloat = false) :
      slots.map (fun s => { s with type := s.type.stored }) = slots := by
    refine (List.map_congr_left fun s member => ?_).trans (List.map_id slots)
    rw [Ty.storedOther (plain s member)]
    rfl
  rw [Signature.mapTypes, kept _ free.1, kept _ free.2]

theorem mappedStored (supported : c.format.isSupported = true) (sig : Signature) :
    sig.mapTypes (mapTy c.format) = sig.mapTypes Ty.stored := by
  rw [funext (Ty.storedMapped supported)]

theorem resolvedStored (supported : c.format.isSupported = true) (declared : DeclaresBuiltins c p)
    (called : p.calleeSig? callee = some sig)
    (resolves : Resolves c ((pass c).site p f) callee target) :
    target.plan.types = (sig.mapTypes Ty.stored).returnTypes := by
  have outer (foreign : ((pass c).site p f).signature? callee = none) :
      ∃ e, p.externNamed? callee = some e ∧ e.sig = sig := by
    have unnamed : p.functionNamed? callee = none := foreignSignature.mp foreign
    rw [Program.calleeSig?, unnamed] at called
    exact Option.map_eq_some_iff.mp called
  cases resolves with
  | function own =>
    obtain ⟨g, named, rfl⟩ := Option.map_eq_some_iff.mp own
    change p.functionNamed? callee = some g at named
    rw [Program.calleeSig?, named] at called
    cases called
    exact congrArg Signature.returnTypes (mappedStored supported g.sig)
  | builtin foreign found fixed classified legal =>
    obtain ⟨e, named, rfl⟩ := outer foreign
    have name : e.name = callee := by simpa using List.find?_some named
    rw [classifiedTypes classified,
      declared e (List.mem_of_find?_eq_some named) _ (name ▸ found)]
  | @outside e foreign unknown named free =>
    obtain ⟨e', named', rfl⟩ := outer foreign
    obtain rfl := Option.some.inj (named.symm.trans named')
    rw [floatFreeStored free]
    rfl

theorem storedReturns (sig : Signature) :
    (sig.mapTypes Ty.stored).returnTypes = sig.returnTypes.map Ty.stored := by
  simp [Signature.mapTypes, Signature.returnTypes, Function.comp_def]

theorem memTempsOf {ts : List Temp} {types : List Ty} (same : types = ts.map fun t => t.type.stored) :
    tempsOf types (ts.map Temp.id) = ts.map fun t => ⟨t.id, t.type.stored⟩ := by
  subst same
  rw [tempsOf, List.zip_map', List.map_map]
  rfl

theorem copiedPlainType (typed : i.Typed p f) (sound : WellFormed.instr? p f f.temps i = none)
    (kept : copied i.op = true ∨ i.op = .stackaddr) (result : t ∈ i.results) :
    t.type.stored = t.type := by
  have plain : i.op.category ≠ .call ∧ i.op.category ≠ .control := by
    have arity : i.op.results ≠ .none := fun none => by
      rw [WellFormed.noResult sound none] at result
      cases result
    revert kept arity
    cases i.op <;> simp [copied, Opcode.results, Opcode.category]
  rw [(WellFormed.definedType sound plain result).2]
  have yields := typed.yields
  have whole (op : IntOp) (is : i.op = .int op) := WellFormed.wholeArith sound is
  revert kept yields whole plain
  cases i.op with
  | int op => exact fun _ _ _ whole => Ty.storedInteger (whole op rfl)
  | stackaddr => exact fun _ _ yields _ => by rw [of_decide_eq_true yields]; rfl
  | icmp | sext | zext | trunc | zext1 | trunc1 => exact fun _ _ yields _ => Ty.storedInteger yields
  | _ => simp [copied, Opcode.category]

section Instructions

variable (supported : c.format.isSupported = true) (declared : DeclaresBuiltins c p)
  (typed : i.Typed p f) (sound : WellFormed.instr? p f f.temps i = none)

include supported declared typed sound

theorem retypesStored (retypes : Retypes c ((pass c).site p f) i t') :
    ∃ t ∈ i.results, t' = ⟨t.id, t.type.stored⟩ := by
  have one {t : Temp} {type : Ty} (result : i.results = [t])
      (op : i.op.category ≠ .call ∧ i.op.category ≠ .control) (same : type = i.type.stored) :
      ∃ u ∈ i.results, (⟨t.id, type⟩ : Temp) = ⟨u.id, u.type.stored⟩ := by
    have member : t ∈ i.results := result ▸ List.mem_cons_self
    exact ⟨t, member, by rw [(WellFormed.definedType sound op member).2, same]⟩
  have yields := typed.yields
  cases retypes with
  | constant result op =>
    rw [op] at yields
    exact one result (by rw [op]; decide) (Ty.storedInteger yields).symm
  | mapped result op =>
    refine one result ?_ (Ty.storedMapped supported _)
    rcases op with op | op | op <;> rw [op] <;> decide
  | kept result op =>
    refine ⟨t', result, ?_⟩
    rw [copiedPlainType typed sound op result]
  | encoded result op =>
    rcases op with op | ⟨float, op, is⟩
    · rw [op] at yields
      exact one result (by rw [op]; decide) (Ty.storedFloat yields).symm
    · exact one result (by rw [is]; exact ⟨nofun, nofun⟩) (Ty.storedFloat float).symm
  | compared result op =>
    rw [op] at yields
    refine one result (by rw [op]; exact ⟨nofun, nofun⟩) ?_
    rw [of_decide_eq_true yields]
    rfl
  | narrowed result op integer =>
    exact one result (by rw [op]; decide) (Ty.storedInteger integer).symm
  | called op resolves result =>
    obtain ⟨sig, called, types⟩ := WellFormed.callTypes sound op
    have given := resolvedStored supported declared called resolves
    rw [storedReturns, ← types, List.map_map] at given
    rw [memTempsOf given] at result
    obtain ⟨t, member, same⟩ := List.mem_map.mp result
    exact ⟨t, member, same.symm⟩

end Instructions

section Functions

theorem loweredOrigin {k : Setting} {bs bs' : List Block} (lowered : LoweredBlocks k bs bs')
    (member : t' ∈ bs'.flatMap Block.temps) (below : t'.id.toNat < k.reserved) :
    (∃ b ∈ bs, t' ∈ mappedParams k.site b) ∨
      ∃ b ∈ bs, ∃ i ∈ b.instrs, Retypes k.config k.site i t' := by
  have code {is code : List Instr} (segments : Segments k is code) {j : Instr} (instr : j ∈ code)
      (result : t' ∈ j.results) : ∃ i ∈ is, Retypes k.config k.site i t' := by
    induction segments with
    | nil => cases instr
    | @cons i rest code code' head tail ih =>
      rcases List.mem_append.mp instr with here | later
      · cases head with
        | written lowered reserved inside below' admitted retypes =>
          rcases retypes j here t' result with fresh | own
          · omega
          · exact ⟨i, List.mem_cons_self, own⟩
      · obtain ⟨i', among, own⟩ := ih later
        exact ⟨i', List.mem_cons_of_mem _ among, own⟩
  induction lowered with
  | nil => cases member
  | @cons b written rest converted head tail ih =>
    rw [List.flatMap_cons] at member
    rcases List.mem_append.mp member with here | later
    · rcases List.mem_append.mp here with param | result
      · exact .inl ⟨b, List.mem_cons_self, param⟩
      · obtain ⟨j, instr, defines⟩ := List.mem_flatMap.mp result
        obtain ⟨i, among, own⟩ := code head instr defines
        exact .inr ⟨b, List.mem_cons_self, i, among, own⟩
    · rcases ih later with ⟨b', block, param⟩ | ⟨b', block, own⟩
      · exact .inl ⟨b', List.mem_cons_of_mem _ block, param⟩
      · exact .inr ⟨b', List.mem_cons_of_mem _ block, own⟩

variable (supported : c.format.isSupported = true) (declared : DeclaresBuiltins c p)
  (runnable : p.Runnable) (typed : p.Typed)

include supported declared runnable typed

theorem storedTemp (source : f ∈ p.functions) (made : LoweredFunction c p externs f f')
    (member : t ∈ f.temps) (other : ¬ IsCast f t.id) :
    (⟨t.id, t.type.stored⟩ : Temp) ∈ f'.temps := by
  have sound := WellFormed.noViolation runnable.wellFormed source
  have once := WellFormed.definesOnce sound
  have same {u : Temp} (among : u ∈ f.temps) (id : u.id = t.id) : u.type = t.type := by
    rw [← Function.tempTypeOnce once among, id, Function.tempTypeOnce once member]
  obtain ⟨t', kept, id⟩ := made.keeps t member other
  have below : t'.id.toNat < f.nextTemp.toNat := by
    rw [id]
    exact Function.tempBelowNext member (runnable.room f source t member)
  suffices t' = ⟨t.id, t.type.stored⟩ from this ▸ kept
  rcases loweredOrigin made.blocks kept below with ⟨b, block, param⟩ | ⟨b, block, i, instr, own⟩
  · obtain ⟨u, among, rfl⟩ := List.mem_map.mp param
    have type := same (Function.memParams block among) id
    rw [← id, ← type]
    exact congrArg (Temp.mk u.id) (Ty.storedMapped supported u.type)
  · have inside : i ∈ f.code := List.mem_flatMap.mpr ⟨b, block, instr⟩
    obtain ⟨u, among, rfl⟩ := retypesStored supported declared (typed f source i inside)
      (WellFormed.instrSound sound block instr) own
    have type := same (Function.memTemps block instr among) id
    rw [← id, ← type]

theorem storedType (source : f ∈ p.functions) (made : LoweredFunction c p externs f f')
    {id : TempId} (defined : ∃ t ∈ f.temps, t.id = id) (other : ¬ IsCast f id) :
    Frame.tempType f' id = (Frame.tempType f id).stored := by
  obtain ⟨t, member, rfl⟩ := defined
  have once := WellFormed.definesOnce (WellFormed.noViolation runnable.wellFormed source)
  have kept := storedTemp supported declared runnable typed source made member other
  rw [Function.tempTypeOnce once member]
  exact Function.tempTypeOnce made.once kept

end Functions

end FixedIL.Lowering
