import FixedIL.Proofs.ExternsUnread
import FixedIL.Proofs.LoweredCalls
import FixedIL.Proofs.RegistryMembers

/-!
Functions of a program are lowered each by itself, so that their order does not matter. The
externs that they need are gathered in the order of the calls; two of one name are the same,
since an implementation of a builtin belongs to one builtin only.
-/
namespace FixedIL

namespace Builtin.Registry

variable {r : Registry} {d d' : Descriptor} {m m' : Implementation}

structure Partitioned (r : Registry) : Prop where
  inside : ∀ d ∈ r.descriptors, ∀ k ∈ d.members, k < r.implementations.length
  apart : ∀ d ∈ r.descriptors, ∀ d' ∈ r.descriptors, ∀ k ∈ d.members, k ∈ d'.members → d = d'

theorem createPartitioned {decls : List Implementation} (made : create decls = .ok r) :
    Partitioned r := by
  have indexed := (createBuilt made).indexed
  refine ⟨fun d known k among => indexed.inside known among,
    fun d known d' known' k among among' => ?_⟩
  obtain ⟨n, place⟩ := List.getElem?_of_mem known
  obtain ⟨n', place'⟩ := List.getElem?_of_mem known'
  have owner := indexed.member n d place k among
  obtain rfl := Option.some.inj (owner.symm.trans (indexed.member n' d' place' k among'))
  exact Option.some.inj (place.symm.trans place')

theorem symbolOwner (parted : Partitioned r) (once : (r.implementations.map (·.symbol)).Nodup)
    {v : Variant} (known : d ∈ r.descriptors) (known' : d' ∈ r.descriptors)
    (serves : r.implementationFor? d v = some m) (serves' : r.implementationFor? d' v = some m')
    (same : m.symbol = m'.symbol) : d = d' := by
  obtain ⟨k, member, place⟩ := implementationMember serves
  obtain ⟨k', member', place'⟩ := implementationMember serves'
  have inside : k < (r.implementations.map (·.symbol)).length := by
    rw [List.length_map]
    exact parted.inside d known k member
  have symbols : (r.implementations.map (·.symbol))[k]? =
      (r.implementations.map (·.symbol))[k']? := by
    rw [List.getElem?_map, List.getElem?_map, place, place', Option.map_some, Option.map_some, same]
  obtain rfl : k = k' := (List.getElem?_inj inside once).mp symbols
  exact parted.apart d known d' known' k member member'

end Builtin.Registry

namespace Lowering

section Externs

variable {externs externs' es es' : List Extern} {e e' : Extern}

theorem addedPerm (perm : externs.Perm externs') (e : Extern) :
    (addExtern externs e).Perm (addExtern externs' e) := by
  have any : (externs.any fun other => other.name = e.name) =
      externs'.any fun other => other.name = e.name := perm.any_eq
  rw [addExtern, addExtern, any]
  split
  · exact perm
  · exact perm.append_right [e]

theorem allAddedPerm (perm : externs.Perm externs') (es : List Extern) :
    (es.foldl addExtern externs).Perm (es.foldl addExtern externs') := by
  induction es generalizing externs externs' with
  | nil => exact perm
  | cons e rest ih => exact ih (addedPerm perm e)

theorem addedSwap (same : e.name = e'.name → e = e') :
    (addExtern (addExtern externs e) e').Perm (addExtern (addExtern externs e') e) := by
  by_cases alike : e.name = e'.name
  · rw [same alike]
  · have other : ¬ e'.name = e.name := fun is => alike is.symm
    unfold addExtern
    by_cases first : externs.any fun other => other.name = e.name <;>
      by_cases second : externs.any fun other => other.name = e'.name <;>
      simp [first, second, alike, other, List.perm_append_left_iff, List.Perm.swap]

theorem allAddedReorder (perm : es.Perm es')
    (consistent : ∀ e ∈ es, ∀ e' ∈ es, e.name = e'.name → e = e') :
    (es.foldl addExtern externs).Perm (es'.foldl addExtern externs) := by
  induction perm generalizing externs with
  | nil => exact .refl _
  | cons e perm ih =>
    exact ih fun a member b member' =>
      consistent a (List.mem_cons_of_mem _ member) b (List.mem_cons_of_mem _ member')
  | swap e e' rest =>
    refine allAddedPerm (addedSwap (consistent e' ?_ e ?_)) rest
    · exact List.mem_cons_self
    · exact List.mem_cons_of_mem _ List.mem_cons_self
  | trans perm perm' ih ih' =>
    exact (ih consistent).trans (ih' fun a member b member' =>
      consistent a (perm.mem_iff.mpr member) b (perm.mem_iff.mpr member'))

end Externs

def alone? (c : Config) (p : Program) (f : Function) : Option Function :=
  ((pass c).runFunction p [] f).toOption.map Prod.fst

def declared (c : Config) (p : Program) : List Extern :=
  (neededBy c p p.code).foldl addExtern (p.externs.filter fun e => !e.sig.mentionsFloat)

section Functions

variable {c : Config} {p q p' : Program} {f f' : Function} {fs fs' : List Function}
  {externs externs' : List Extern} {e e' : Extern} {callee callee' : String}

theorem aloneGives (externs : List Extern) : alone? c p f = some f' ↔
    ∃ s', ((pass c).function p f ((pass c).sigFor p f)).Gives (Pass.begun externs) f' s' := by
  have first : alone? c p f = some f' ↔
      ∃ s', ((pass c).function p f ((pass c).sigFor p f)).Gives (Pass.begun []) f' s' := by
    constructor
    · intro made
      obtain ⟨⟨g, more⟩, run, rfl⟩ := Option.map_eq_some_iff.mp made
      obtain ⟨s', gives, -⟩ := Pass.runFunctionGives.mp (okOfOption run)
      exact ⟨s', gives⟩
    · rintro ⟨s', gives⟩
      rw [alone?, Pass.runFunctionGives.mpr ⟨s', gives, rfl⟩]
      rfl
  rw [first]
  constructor
  · rintro ⟨s', gives⟩
    obtain ⟨externs', gives⟩ := blindFunction _ _ _ externs gives
    exact ⟨_, gives⟩
  · rintro ⟨s', gives⟩
    obtain ⟨externs', gives⟩ := blindFunction _ _ _ [] gives
    exact ⟨_, gives⟩

theorem runsAlone : Pass.Runs (pass c) p fs externs fs' externs' ↔
    List.Forall₂ (fun f f' => alone? c p f = some f') fs fs' ∧
      externs' = (neededBy c p (fs.flatMap Function.code)).foldl addExtern externs := by
  constructor
  · intro runs
    refine ⟨?_, functionsNeed runs⟩
    induction runs with
    | nil => exact .nil
    | cons gives tail ih => exact .cons ((aloneGives _).mpr ⟨_, gives⟩) ih
  · rintro ⟨each, rfl⟩
    induction each generalizing externs with
    | nil => exact .nil _
    | cons head tail ih =>
      obtain ⟨s', gives⟩ := (aloneGives externs).mp head
      obtain ⟨start, bs, converts⟩ := convertsAny gives
      rw [List.flatMap_cons, neededAppend, List.foldl_append, ← converts.externs]
      exact .cons gives ih

theorem runAlone : (pass c).run p = .ok p' ↔ c.format.isSupported = true ∧
    (∀ f ∈ p.functions, (alone? c p f).isSome) ∧
      p' = ⟨declared c p, p.functions.map fun f => (alone? c p f).getD default⟩ := by
  have each (fs fs' : List Function) :
      List.Forall₂ (fun f f' => alone? c p f = some f') fs fs' ↔
        (∀ f ∈ fs, (alone? c p f).isSome) ∧ fs' = fs.map fun f => (alone? c p f).getD default := by
    induction fs generalizing fs' with
    | nil => simp
    | cons f rest ih =>
      rw [List.forall₂_cons_left_iff]
      cases made : alone? c p f with
      | none => simp [made]
      | some f' => simp [made, ih]
  have kept : (pass c).keepExterns p = keepExterns c.format p := rfl
  rw [Pass.runGives, kept, keepExterns]
  obtain ⟨externs, functions⟩ := p'
  split
  · simp only [Except.ok.injEq, exists_eq_left', runsAlone, Program.mk.injEq, true_and, *]
    exact ⟨fun ⟨⟨made, same⟩, added⟩ => ⟨made, added, same⟩,
      fun ⟨made, added, same⟩ => ⟨⟨made, same⟩, added⟩⟩
  · simp [*]

theorem functionNamedIff (once : (p.functions.map Function.name).Nodup) {name : String} :
    p.functionNamed? name = some f ↔ f ∈ p.functions ∧ f.name = name := by
  constructor
  · intro found
    exact ⟨List.mem_of_find?_eq_some found, by simpa using List.find?_some found⟩
  · rintro ⟨member, rfl⟩
    cases found : p.functionNamed? f.name with
    | none => exact absurd (List.mem_map_of_mem member) (notNamed.mp found)
    | some g =>
      have same : g.name = f.name := by simpa using List.find?_some found
      rw [List.inj_on_of_nodup_map once (List.mem_of_find?_eq_some found) member same]

theorem alikeReordered (once : (p.functions.map Function.name).Nodup)
    (perm : fs.Perm p.functions) : Alike ⟨p.externs, fs⟩ p := by
  refine ⟨funext fun name => Option.ext fun f => ?_, rfl⟩
  have once' : (fs.map Function.name).Nodup := (perm.map _).nodup_iff.mpr once
  rw [functionNamedIff once, functionNamedIff once', perm.mem_iff]

theorem alikeAlone (alike : Alike p q) : alone? c p = alone? c q := by
  funext f
  refine Option.ext fun f' => ?_
  have sig : (pass c).sigFor p f = (pass c).sigFor q f := by
    rw [Pass.sigFor, Pass.sigFor, alikeSignature alike]
  rw [aloneGives [], aloneGives [], alikeFunction alike, sig]

theorem alikeNeeded (alike : Alike p q) (code : List Instr) :
    neededBy c p code = neededBy c q code := by
  unfold neededBy redirect?
  rw [alike.functions]

theorem redirectOnce {decls : List Builtin.Implementation}
    (made : Builtin.Registry.create decls = .ok c.registry)
    (symbols : (c.registry.implementations.map (·.symbol)).Nodup)
    (needs : redirect? c p callee = some e) (needs' : redirect? c p callee' = some e')
    (same : e.name = e'.name) : e = e' := by
  obtain ⟨-, hit, m, sig, found, fixed, legal, rfl⟩ := redirectIff.mp needs
  obtain ⟨-, hit', m', sig', found', fixed', legal', rfl⟩ := redirectIff.mp needs'
  have owner : hit.descriptor = hit'.descriptor :=
    Builtin.Registry.symbolOwner (Builtin.Registry.createPartitioned made) symbols
      (Builtin.Registry.hitDescriptor found) (Builtin.Registry.hitDescriptor found') fixed fixed'
      same
  rw [owner] at legal
  cases legal.symm.trans legal'
  exact congrArg (Extern.mk · sig) same

theorem declaredReordered {decls : List Builtin.Implementation}
    (made : Builtin.Registry.create decls = .ok c.registry)
    (symbols : (c.registry.implementations.map (·.symbol)).Nodup)
    (once : (p.functions.map Function.name).Nodup) (perm : fs.Perm p.functions) :
    (declared c ⟨p.externs, fs⟩).Perm (declared c p) := by
  have code : (fs.flatMap Function.code).Perm (p.functions.flatMap Function.code) :=
    perm.flatMap_right _
  have needed : (neededBy c p (fs.flatMap Function.code)).Perm (neededBy c p p.code) :=
    (code.filter _).filterMap _
  rw [declared, declared, alikeNeeded (alikeReordered once perm)]
  refine allAddedReorder needed fun e member e' member' => ?_
  obtain ⟨i, -, needs⟩ := List.mem_filterMap.mp member
  obtain ⟨i', -, needs'⟩ := List.mem_filterMap.mp member'
  exact redirectOnce made symbols needs needs'

/-- The order of its functions does not matter to lowering a program: it succeeds in both orders or
in none, makes the same of each function, and declares the same externs. -/
theorem loweringReordered {decls : List Builtin.Implementation}
    (made : Builtin.Registry.create decls = .ok c.registry)
    (symbols : (c.registry.implementations.map (·.symbol)).Nodup)
    (once : (p.functions.map Function.name).Nodup) (perm : fs.Perm p.functions) :
    ((∃ q', (pass c).run ⟨p.externs, fs⟩ = .ok q') ↔ ∃ p', (pass c).run p = .ok p') ∧
      ∀ p' q', (pass c).run p = .ok p' → (pass c).run ⟨p.externs, fs⟩ = .ok q' →
        (∃ g, p'.functions = p.functions.map g ∧ q'.functions = fs.map g) ∧
          q'.externs.Perm p'.externs := by
  have same : alone? c ⟨p.externs, fs⟩ = alone? c p := alikeAlone (alikeReordered once perm)
  refine ⟨?_, fun p' q' run run' => ?_⟩
  · simp only [runAlone, same, perm.mem_iff, exists_and_left, exists_eq]
  · obtain ⟨-, -, rfl⟩ := runAlone.mp run
    obtain ⟨-, -, rfl⟩ := runAlone.mp run'
    rw [same]
    exact ⟨⟨_, rfl, rfl⟩, declaredReordered made symbols once perm⟩

end Functions

section Shade

def shadeConfig : Config :=
  ⟨(Builtin.Registry.create (sineBuiltins ++ hueBuiltins)).toOption.getD .empty, .riscv32Ilp32,
    .fixed16x16⟩

def shadeCall (callee : String) (arg : TempId) (results : List TempId) : Instr :=
  { Instr.blank .call with
    type := Emit.callType (results.map fun _ => .f32), results := results.map (⟨·, .f32⟩)
    operands := [.temp arg], callee := callee }

def shadeSource : Program where
  externs := [⟨"sin_f32", .ofTypes [.f32] [.f32]⟩,
    ⟨"hue2rgb_f32", .ofTypes [.f32] [.f32, .f32, .f32]⟩]
  functions := [
    ⟨"wave", .ofTypes [.f32] [.f32], [⟨"entry", [⟨0, .f32⟩], [
      shadeCall "sin_f32" 0 [1], shadeCall "shade" 1 [2],
      { Instr.blank .ret with operands := [.temp 2] }]⟩], [], []⟩,
    ⟨"shade", .ofTypes [.f32] [.f32], [⟨"entry", [⟨0, .f32⟩], [
      shadeCall "hue2rgb_f32" 0 [1, 2, 3], shadeCall "wave" 2 [4],
      { Instr.blank .ret with operands := [.temp 4] }]⟩], [], []⟩]

theorem shadeReordered : shadeSource.WellFormed ∧
    ∃ p' q', (pass shadeConfig).run shadeSource = .ok p' ∧
      (pass shadeConfig).run ⟨shadeSource.externs, shadeSource.functions.reverse⟩ = .ok q' ∧
      (∃ g, p'.functions = shadeSource.functions.map g ∧
        q'.functions = shadeSource.functions.reverse.map g) ∧
      q'.externs.Perm p'.externs ∧ q'.externs ≠ p'.externs := by
  have valid : (Builtin.Registry.create (sineBuiltins ++ hueBuiltins)).toOption.isSome = true := by
    decide +kernel
  obtain ⟨r, known⟩ := Option.isSome_iff_exists.mp valid
  have made : Builtin.Registry.create (sineBuiltins ++ hueBuiltins) =
      .ok shadeConfig.registry := by
    rw [shadeConfig, known]
    exact okOfOption known
  have lowered : ((pass shadeConfig).run shadeSource).toOption.isSome = true := by decide +kernel
  obtain ⟨p', run⟩ := Option.isSome_iff_exists.mp lowered
  obtain ⟨both, same⟩ := loweringReordered made (by decide +kernel) (by decide +kernel)
    (shadeSource.functions.reverse_perm)
  obtain ⟨q', run'⟩ := both.mpr ⟨p', okOfOption run⟩
  obtain ⟨functions, externs⟩ := same p' q' (okOfOption run) run'
  have differ : ((pass shadeConfig).run ⟨shadeSource.externs,
      shadeSource.functions.reverse⟩).toOption.map Program.externs ≠
        ((pass shadeConfig).run shadeSource).toOption.map Program.externs := by decide +kernel
  rw [run, run'] at differ
  exact ⟨by decide +kernel, p', q', okOfOption run, run', functions, externs,
    fun alike => differ (congrArg some alike)⟩

end Shade

end Lowering
end FixedIL
