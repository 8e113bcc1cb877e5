import FixedIL.Proofs.LoweredFloats
import FixedIL.Proofs.RegistryLookups

/-!
Flat signatures in the two domains. What a lane is in the fixed-point domain is told twice: by the
prototype of the builtin, and by the type that lowering puts in the place of a float. Both tell the
same, and so a call that suits the implementation for floats suits its counterpart.
-/
namespace FixedIL

inductive Ty.Twins : Ty → Ty → Prop where
  | lane : Twins .f32 .i32
  | other {t : Ty} (plain : t.isFloat = false) : Twins t t

structure Slot.Twins (a b : Slot) : Prop where
  type : a.type.Twins b.type
  purpose : a.purpose = b.purpose

structure Signature.Twins (s t : Signature) : Prop where
  params : List.Forall₂ Slot.Twins s.params t.params
  returns : List.Forall₂ Slot.Twins s.returns t.returns

theorem Signature.Twins.counts {s t : Signature} (twins : s.Twins t) : s.SameCounts t :=
  ⟨twins.params.length_eq, twins.returns.length_eq⟩

theorem Signature.SameCounts.agrees {s t : Signature} (counts : s.SameCounts t) {i : Instr} :
    i.Agrees s ↔ i.Agrees t :=
  ⟨fun ⟨operands, results⟩ => ⟨operands.trans counts.params, results.trans counts.returns⟩,
    fun ⟨operands, results⟩ =>
      ⟨operands.trans counts.params.symm, results.trans counts.returns.symm⟩⟩

namespace Builtin

open Lowering (mapTy)

def ShaderTy.isReal : ShaderTy → Bool
  | .float | .vec2 | .vec3 | .vec4 => true
  | _ => false

section Lanes

variable {format : Fixed.Format} {v : Variant} {p q : Prototype} {s : Slot}

theorem laneMapped (supported : format.isSupported = true) (t : ShaderTy) :
    mapTy format (laneTy .float t) = laneTy .fixedPoint t := by
  cases format with
  | fixed16x16 => cases t <;> rfl
  | fixed32x32 => cases supported

theorem laneTwins (t : ShaderTy) : (laneTy .float t).Twins (laneTy .fixedPoint t) := by
  cases t with
  | bool | int | uint => exact .other rfl
  | void | float | vec2 | vec3 | vec4 => exact .lane

theorem lanesMapped (supported : format.isSupported = true) (t : ShaderTy) :
    (lanesOf .float t).map (mapTy format) = lanesOf .fixedPoint t := by
  rw [lanesOf, List.map_replicate, laneMapped supported]
  rfl

theorem Param.flattenMapped (supported : format.isSupported = true) (q : Param) :
    (q.flatten .float).map (mapTy format) = q.flatten .fixedPoint := by
  unfold Param.flatten
  split
  · exact lanesMapped supported q.type
  · rfl

theorem Param.flattenSame (q : Param) : q.flatten .fixedPoint = q.flatten .float ↔
    q.direction ≠ .input ∨ q.type.isReal = false := by
  obtain ⟨-, type, direction⟩ := q
  cases direction with
  | output | both => simp [flatten]
  | input => cases type <;> simp [flatten, lanesOf, laneTy, ShaderTy.lanes, ShaderTy.isReal]

theorem mapOfTypes (f : Ty → Ty) (params returns : List Ty) :
    (Signature.ofTypes params returns).mapTypes f = .ofTypes (params.map f) (returns.map f) := by
  simp [Signature.ofTypes, Signature.mapTypes, Function.comp_def]

theorem flattenMapped (supported : format.isSupported = true) (p : Prototype) :
    (p.flatten .float).mapTypes (mapTy format) = p.flatten .fixedPoint := by
  have params : (p.params.flatMap (Param.flatten .float)).map (mapTy format) =
      p.params.flatMap (Param.flatten .fixedPoint) := by
    rw [List.map_flatMap]
    exact List.flatMap_congr fun q _ => q.flattenMapped supported
  rw [Prototype.flatten, mapOfTypes, params, lanesMapped supported]
  rfl

theorem flatSlots (member : s ∈ (p.flatten v).params ++ (p.flatten v).returns) :
    s.type = .ptr ∨ ∃ t, s.type = laneTy v t := by
  have lane {t : ShaderTy} {type : Ty} (member : type ∈ lanesOf v t) :
      type = .ptr ∨ ∃ t, type = laneTy v t := .inr ⟨t, (List.mem_replicate.mp member).2⟩
  rcases List.mem_append.mp member with param | returned
  · obtain ⟨type, among, rfl⟩ := List.mem_map.mp param
    obtain ⟨q, -, among⟩ := List.mem_flatMap.mp among
    unfold Param.flatten at among
    split at among
    · exact lane among
    · exact .inl (List.mem_singleton.mp among)
  · obtain ⟨type, among, rfl⟩ := List.mem_map.mp returned
    exact lane among

theorem flattenTwins (p : Prototype) : (p.flatten .float).Twins (p.flatten .fixedPoint) := by
  have supported : Fixed.Format.fixed16x16.isSupported = true := rfl
  have each {s : Slot} (member : s ∈ (p.flatten .float).params ++ (p.flatten .float).returns) :
      s.Twins { s with type := mapTy .fixed16x16 s.type } := by
    refine ⟨?_, rfl⟩
    rcases flatSlots member with address | ⟨t, lane⟩
    · rw [address]
      exact .other rfl
    · rw [lane, laneMapped supported]
      exact laneTwins t
  rw [← flattenMapped supported p]
  refine ⟨?_, ?_⟩ <;> rw [Signature.mapTypes, List.forall₂_map_right_iff, List.forall₂_same]
  · exact fun s member => each (List.mem_append_left _ member)
  · exact fun s member => each (List.mem_append_right _ member)

theorem flattenMappedIff (format : Fixed.Format) (p : Prototype) :
    (p.flatten .float).mapTypes (mapTy format) = p.flatten .fixedPoint ↔
      format.isSupported = true ∨ (p.flatten .float).mentionsFloat = false := by
  constructor
  · intro same
    by_contra both
    obtain ⟨reserved, floats⟩ := not_or.mp both
    rw [Bool.not_eq_false, Signature.mentionsFloat, ← List.any_append] at floats
    obtain ⟨s, member, float⟩ := List.any_eq_true.mp floats
    have mapped : { s with type := mapTy format s.type } ∈
        (p.flatten .fixedPoint).params ++ (p.flatten .fixedPoint).returns := by
      rw [← same, Signature.mapTypes, ← List.map_append]
      exact List.mem_map_of_mem member
    have wide : mapTy format s.type = .i64 := by
      cases format with
      | fixed16x16 => exact absurd rfl reserved
      | fixed32x32 => exact if_pos float
    rcases flatSlots mapped with address | ⟨t, lane⟩
    · rw [wide] at address
      cases address
    · rw [wide] at lane
      cases t <;> cases lane
  · rintro (supported | free)
    · exact flattenMapped supported p
    · have supported : Fixed.Format.fixed16x16.isSupported = true := rfl
      rw [Lowering.plainSig free, ← flattenMapped supported p, Lowering.plainSig free]

theorem Prototype.Matches.flatten (same : p.Matches q) (v : Variant) :
    p.flatten v = q.flatten v := by
  obtain ⟨-, returns, shapes⟩ := Prototype.matchesIff.mp same
  have byShape (ps : List Param) : ps.flatMap (Param.flatten v) = (ps.map Param.shape).flatMap
      fun s => if s.2 = .input then lanesOf v s.1 else [.ptr] := by
    rw [List.flatMap_map]
    rfl
  rw [Prototype.flatten, Prototype.flatten, returns, byShape, byShape, shapes]

end Lanes

namespace Registry

variable {r : Registry} {d : Descriptor} {m : Implementation} {symbol : String} {hit : SymbolHit}

theorem Indexed.owns (indexed : r.Indexed) (found : r.findSymbol? symbol = some hit) :
    ∃ k, r.Owns k hit := by
  simp only [findSymbol?, Option.bind_eq_bind, Option.bind_eq_some_iff] at found
  obtain ⟨k, -, m, place, n, owner, d, known, is⟩ := found
  cases is
  obtain ⟨n', d', owner', known', among, -⟩ := indexed.owned k m place
  obtain rfl := Option.some.inj (owner.symm.trans owner')
  obtain rfl := Option.some.inj (known.symm.trans known')
  exact ⟨k, place, ⟨n, owner, known⟩, among⟩

theorem Indexed.alike (indexed : r.Indexed) (known : d ∈ r.descriptors)
    (among : m ∈ r.members d) : d.prototype.Matches m.prototype := by
  obtain ⟨k, own, place⟩ := List.mem_filterMap.mp among
  obtain ⟨n, known⟩ := List.getElem?_of_mem known
  obtain ⟨n', d', owner, known', -, same⟩ := indexed.owned k m place
  obtain rfl := Option.some.inj ((indexed.member n d known k own).symm.trans owner)
  obtain rfl := Option.some.inj (known.symm.trans known')
  exact same

end Registry

end Builtin

namespace Lowering

open PassM Builtin Builtin.Registry

section Calls

variable {c : Config} {site : Site} {i : Instr} {s : PassState} {callee : String}
  {target : CallTarget} {hit : SymbolHit} {m : Implementation}

theorem resolvedFlat (foreign : site.signature? callee = none)
    (found : c.registry.findSymbol? callee = some hit) (resolves : Resolves c site callee target) :
    target.sig.params.length - (if target.plan.usesBuffer then 1 else 0) =
        (hit.descriptor.prototype.flatten .fixedPoint).params.length ∧
      target.plan.types.length = (hit.descriptor.prototype.flatten .fixedPoint).returns.length := by
  cases resolves with
  | function own =>
    rw [foreign] at own
    cases own
  | builtin foreign found' fixed classified legal =>
    rw [found] at found'
    cases found'
    rw [ReturnPlan.legalizeClassified classified] at legal
    refine ⟨?_, by rw [classifiedTypes classified, Signature.returnTypes, List.length_map]⟩
    rw [← Except.ok.inj legal]
    split <;> simp
  | outside foreign unknown declared floatFree =>
    rw [found] at unknown
    cases unknown

theorem targetFound (foreign : site.signature? i.callee = none)
    (found : c.registry.findSymbol? i.callee = some hit)
    (serves : c.registry.implementationFor? hit.descriptor .fixedPoint = some m) :
    ∃ target mid, (callTarget c site i).Gives s target mid := by
  simp only [callTarget, givesBind, givesGet]
  cases known : s.callTargets.lookup i.callee with
  | some target => exact ⟨target, s, s, s, ⟨rfl, rfl⟩, by simp [known]⟩
  | none =>
    obtain ⟨plan, sig, mid, resolved⟩ := symbolTargetGives foreign found serves
    exact ⟨_, _, s, s, ⟨rfl, rfl⟩, by simpa [known] using ⟨mid, resolved, rfl⟩⟩

theorem callGivesIff (named : i.callee.isEmpty = false) :
    (∃ s', (call c site i).Gives s () s') ↔
      ∃ target mid, (callTarget c site i).Gives s target mid ∧
        i.operands.length = target.sig.params.length - (if target.plan.usesBuffer then 1 else 0) ∧
        i.results.length = target.plan.types.length := by
  simp [call, named]

theorem callConverted (indexed : c.registry.Indexed) (steady : Steady c site s)
    (foreign : site.signature? i.callee = none) (named : i.callee.isEmpty = false)
    (found : c.registry.findSymbol? i.callee = some hit)
    (serves : c.registry.implementationFor? hit.descriptor .fixedPoint = some m) :
    (∃ s', (call c site i).Gives s () s') ↔
      i.Agrees (hit.implementation.prototype.flatten .float) := by
  obtain ⟨k, owns⟩ := indexed.owns found
  have same := (indexed.alike owns.known owns.among).flatten .float
  have counts := (flattenTwins hit.descriptor.prototype).counts
  rw [callGivesIff named, ← same]
  constructor
  · rintro ⟨target, mid, gives, operands, results⟩
    obtain ⟨args, lanes⟩ := resolvedFlat foreign found (targetGives steady gives).resolves
    exact ⟨operands.trans (args.trans counts.params.symm),
      results.trans (lanes.trans counts.returns.symm)⟩
  · rintro ⟨operands, results⟩
    obtain ⟨target, mid, gives⟩ := targetFound foreign found serves
    obtain ⟨args, lanes⟩ := resolvedFlat foreign found (targetGives steady gives).resolves
    exact ⟨target, mid, gives, operands.trans (counts.params.trans args.symm),
      results.trans (counts.returns.trans lanes.symm)⟩

/-- Flattening and lowering agree in every lane, the name and shape of a prototype decide its flat
signatures, and so lowering converts the calls that have the counts of the implementation for
floats and no others. -/
theorem flatteningCommutes (p : Prototype) :
    (∀ format, (p.flatten .float).mapTypes (mapTy format) = p.flatten .fixedPoint ↔
      format.isSupported = true ∨ (p.flatten .float).mentionsFloat = false) ∧
    (p.flatten .float).Twins (p.flatten .fixedPoint) ∧
    (∀ q ∈ p.params, q.flatten .fixedPoint = q.flatten .float ↔
      q.direction ≠ .input ∨ q.type.isReal = false) ∧
    (∀ q : Prototype, p.key = q.key → ∀ v, p.flatten v = q.flatten v) ∧
    ∀ decls c i hit, create decls = .ok c.registry →
      c.registry.findSymbol? i.callee = some hit → hit.implementation.prototype = p →
      ∃ fixed ∈ c.registry.members hit.descriptor,
        c.registry.implementationFor? hit.descriptor .fixedPoint = some fixed ∧
        p.key = fixed.prototype.key ∧
        (i.Agrees (p.flatten .float) ↔ i.Agrees (fixed.prototype.flatten .fixedPoint)) ∧
        ∀ site s, site.signature? i.callee = none → i.callee.isEmpty = false → Steady c site s →
          ((∃ s', (call c site i).Gives s () s') ↔ i.Agrees (p.flatten .float)) := by
  have byKey {q : Prototype} (same : p.key = q.key) (v : Builtin.Variant) : p.flatten v = q.flatten v :=
    (Prototype.keyMatches.mp same).flatten v
  refine ⟨fun format => flattenMappedIff format p, flattenTwins p, fun q _ => q.flattenSame,
    fun q => byKey, ?_⟩
  rintro decls c i hit made found rfl
  have indexed := (createBuilt made).indexed
  obtain ⟨k, owns⟩ := indexed.owns found
  obtain ⟨fixed, among, serves, -⟩ := fixedMember made owns
  have same := (indexed.alike owns.known owns.among).symm.trans (indexed.alike owns.known among)
  have key := Prototype.keyMatches.mpr same
  refine ⟨fixed, among, serves, key, ?_, fun site s foreign named steady =>
    callConverted indexed steady foreign named found serves⟩
  rw [← byKey key]
  exact (flattenTwins _).counts.agrees

end Calls

section Mix

def mixPrototype : Prototype :=
  ⟨"mix", .vec3, [⟨"p", .vec2, .input⟩, ⟨"acc", .float, .both⟩, ⟨"n", .uint, .input⟩]⟩

def mixes : List Implementation :=
  [⟨mixPrototype, some .float, "mix_f32", "", none⟩,
    ⟨mixPrototype, some .fixedPoint, "mix_q32", "", none⟩]

def mixConfig : Config :=
  ⟨⟨mixes, [⟨mixPrototype, true, [0, 1]⟩], [0, 0]⟩, .riscv32Ilp32, .fixed16x16⟩

def mixSite : Site := (pass mixConfig).site ⟨[], []⟩ (.blank "" default)

def mixCall : Instr :=
  { Instr.blank .call with
    results := [⟨4, .f32⟩, ⟨5, .f32⟩, ⟨6, .f32⟩]
    operands := [.temp 0, .temp 1, .temp 2, .temp 3], callee := "mix_f32" }

theorem mixConverts :
    (mixPrototype.flatten .float).mapTypes (mapTy .fixed16x16) =
      .ofTypes [.i32, .i32, .ptr, .i32] [.i32, .i32, .i32] ∧
    create mixes = .ok mixConfig.registry ∧
    (∃ fixed, mixConfig.registry.implementationFor? ⟨mixPrototype, true, [0, 1]⟩ .fixedPoint =
        some fixed ∧ mixCall.Agrees (fixed.prototype.flatten .fixedPoint)) ∧
    (∃ s', (call mixConfig mixSite mixCall).Gives (.blank (.fresh 7)) () s') := by
  have made : create mixes = .ok mixConfig.registry := rfl
  have agrees : mixCall.Agrees (mixPrototype.flatten .float) := ⟨rfl, rfl⟩
  have steady : Steady mixConfig mixSite (.blank (.fresh 7)) := ⟨nofun, nofun, nofun⟩
  obtain ⟨mapped, -, -, -, calls⟩ := flatteningCommutes mixPrototype
  obtain ⟨fixed, -, serves, -, counts, converted⟩ :=
    calls mixes mixConfig mixCall ⟨⟨mixPrototype, true, [0, 1]⟩, _⟩ made rfl rfl
  exact ⟨(mapped .fixed16x16).mpr (.inl rfl), made, ⟨fixed, serves, counts.mp agrees⟩,
    (converted mixSite _ rfl (by decide +kernel) steady).mpr agrees⟩

end Mix

end Lowering
end FixedIL
