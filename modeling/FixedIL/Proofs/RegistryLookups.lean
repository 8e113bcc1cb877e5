import FixedIL.Proofs.LoweredInstr
import FixedIL.Proofs.RegistryMembers
import FixedIL.Proofs.ReturnPlans

/-!
What lookups in a registry find. Declarations of different builtins may share a symbol, or a name
and the types of the arguments: then the first of them answers, and hides the later ones.
-/
namespace FixedIL

namespace Builtin.Registry

variable {r : Registry} {decls : List Implementation} {d d' : Descriptor} {m m' : Implementation}
  {g : Group} {k n : Nat}

structure Owns (r : Registry) (k : Nat) (hit : SymbolHit) : Prop where
  implementation : r.implementations[k]? = some hit.implementation
  owner : ∃ n, r.owners[k]? = some n ∧ r.descriptors[n]? = some hit.descriptor
  member : k ∈ hit.descriptor.members

def OpensSymbol (r : Registry) (k : Nat) (symbol : String) : Prop :=
  ∀ j m, j < k → r.implementations[j]? = some m → m.symbol ≠ symbol

def OpensCall (r : Registry) (n : Nat) (p : Prototype) : Prop :=
  ∀ j d, j < n → r.descriptors[j]? = some d →
    ¬ (d.prototype.name = p.name ∧ d.prototype.paramTypes = p.paramTypes)

theorem Indexed.hit (indexed : r.Indexed) (place : r.implementations[k]? = some m) :
    ∃ d, r.Owns k ⟨d, m⟩ := by
  obtain ⟨n, d, owned, known, among, -⟩ := indexed.owned k m place
  exact ⟨d, place, ⟨n, owned, known⟩, among⟩

theorem Owns.known {hit : SymbolHit} (owns : r.Owns k hit) : hit.descriptor ∈ r.descriptors := by
  obtain ⟨n, -, known⟩ := owns.owner
  exact List.mem_of_getElem? known

theorem Owns.among {hit : SymbolHit} (owns : r.Owns k hit) :
    hit.implementation ∈ r.members hit.descriptor :=
  List.mem_filterMap.mpr ⟨k, owns.member, owns.implementation⟩

theorem tagsApart (paired : WellPaired g) : g.Pairwise fun m m' => m.variant ≠ m'.variant := by
  rcases paired with ⟨one, -⟩ | ⟨two, float, fixed⟩
  · obtain ⟨m, rfl⟩ := List.length_eq_one_iff.mp one
    exact List.pairwise_singleton _ m
  · obtain ⟨m, m', rfl⟩ := List.length_eq_two.mp two
    rw [List.pairwise_pair]
    intro same
    rcases tag : m'.variant with _ | _ | _ <;> simp [tagged, same, tag] at float fixed

theorem ownsOnce (made : create decls = .ok r) {hit : SymbolHit} {j : Nat} (first : r.Owns j hit)
    (second : r.Owns k hit) : j = k := by
  have apart := tagsApart (createPaired made first.known)
  rw [members, List.pairwise_filterMap] at apart
  have symm : Std.Symm fun a b : Nat => ∀ m : Implementation, r.implementations[a]? = some m →
      ∀ m' : Implementation, r.implementations[b]? = some m' → m.variant ≠ m'.variant :=
    ⟨fun a b other m first m' second => (other m' second m first).symm⟩
  by_contra different
  exact apart.forall first.member second.member different _ first.implementation _
    second.implementation rfl

theorem findSymbolAt {symbol : String} {hit : SymbolHit} (owns : r.Owns k hit)
    (found : r.implementations.findIdx? (fun m => m.symbol = symbol) = some k) :
    r.findSymbol? symbol = some hit := by
  obtain ⟨n, owner, known⟩ := owns.owner
  simp [findSymbol?, found, owns.implementation, owner, known]

theorem findSymbolIff (made : create decls = .ok r) {hit : SymbolHit} (owns : r.Owns k hit) :
    r.findSymbol? hit.implementation.symbol = some hit ↔
      r.OpensSymbol k hit.implementation.symbol := by
  obtain ⟨inside, is⟩ := List.getElem?_eq_some_iff.mp owns.implementation
  constructor
  · intro found
    obtain ⟨j, first⟩ : ∃ j, r.implementations.findIdx?
        (fun m => m.symbol = hit.implementation.symbol) = some j := by
      refine Option.isSome_iff_exists.mp (List.findIdx?_isSome.trans ?_)
      exact List.any_eq_true.mpr
        ⟨hit.implementation, List.mem_of_getElem? owns.implementation, decide_eq_true rfl⟩
    obtain ⟨low, -, before⟩ := List.findIdx?_eq_some_iff_getElem.mp first
    obtain ⟨d, other⟩ := (createBuilt made).indexed.hit (List.getElem?_eq_getElem low)
    obtain rfl := Option.some.inj ((findSymbolAt other first).symm.trans found)
    obtain rfl := ownsOnce made other owns
    intro i m earlier place same
    obtain ⟨low, rfl⟩ := List.getElem?_eq_some_iff.mp place
    exact before i earlier (decide_eq_true same)
  · intro opens
    refine findSymbolAt owns (List.findIdx?_eq_some_iff_getElem.mpr ⟨inside, ?_, ?_⟩)
    · exact decide_eq_true (congrArg Implementation.symbol is)
    · intro j earlier same
      have place := List.getElem?_eq_getElem (Nat.lt_trans earlier inside)
      exact opens j _ earlier place (of_decide_eq_true same)

theorem findIff (made : create decls = .ok r) (place : r.descriptors[n]? = some d) :
    r.find? d.prototype.name d.prototype.paramTypes = some d ↔ r.OpensCall n d.prototype := by
  obtain ⟨inside, is⟩ := List.getElem?_eq_some_iff.mp place
  rw [find?, List.find?_eq_some_iff_getElem]
  constructor
  · rintro ⟨-, j, low, same, before⟩ i d' earlier at' alike
    have here : j = n := by
      have apart := List.pairwise_iff_getElem.mp (descriptorsApart made)
      rcases Nat.lt_trichotomy j n with less | equal | more
      · exact absurd (same.trans is.symm ▸ Prototype.matchesRefl _) (apart j n low inside less)
      · exact equal
      · exact absurd (is.trans same.symm ▸ Prototype.matchesRefl _) (apart n j inside low more)
    subst here
    obtain ⟨low', rfl⟩ := List.getElem?_eq_some_iff.mp at'
    simpa [alike] using before i earlier
  · intro opens
    refine ⟨by simp, n, inside, is, fun j earlier => ?_⟩
    have other := opens j _ earlier (List.getElem?_eq_getElem (Nat.lt_trans earlier inside))
    simpa [Decidable.imp_iff_not_or] using other

end Builtin.Registry

namespace Lowering

variable {c : Config} {site : Site} {i : Instr} {s : PassState} {d : Builtin.Descriptor}
  {m : Builtin.Implementation}

theorem builtinTargetGives (serves : c.registry.implementationFor? d .fixedPoint = some m) :
    ∃ plan sig s', (builtinTarget c site i d).Gives s ⟨m.symbol, sig, plan⟩ s' := by
  obtain ⟨plan, sig, classified, legal⟩ := Builtin.flattenClassified d.prototype .fixedPoint c.target
  refine ⟨plan, sig, ?_⟩
  simp only [builtinTarget, serves, classified, legal, declare, PassM.givesBind, PassM.givesModify,
    PassM.givesPure]
  exact ⟨_, (), _, rfl, trivial, rfl⟩

theorem symbolTargetGives {hit : Builtin.Registry.SymbolHit}
    (foreign : site.signature? i.callee = none)
    (found : c.registry.findSymbol? i.callee = some hit)
    (serves : c.registry.implementationFor? hit.descriptor .fixedPoint = some m) :
    ∃ plan sig s', (resolveCallee c site i).Gives s ⟨m.symbol, sig, plan⟩ s' := by
  simp only [resolveCallee, foreign, found]
  exact builtinTargetGives serves

end Lowering

namespace Builtin.Registry

variable {r : Registry} {decls : List Implementation}

theorem fixedMember (made : create decls = .ok r) {k : Nat} {hit : SymbolHit}
    (owns : r.Owns k hit) : ∃ fixed ∈ r.members hit.descriptor,
      r.implementationFor? hit.descriptor .fixedPoint = some fixed ∧
      (hit.implementation.variant = some .float → fixed.variant = some .fixedPoint) := by
  obtain ⟨fixed, among, serves, tag⟩ := pairedServes (createPaired made owns.known) .fixedPoint
  refine ⟨fixed, among, serves, fun float => tag.resolve_right fun ⟨untagged, only⟩ => ?_⟩
  have own := only ▸ owns.among
  rw [List.mem_singleton.mp own, untagged] at float
  cases float

/-- Lookups find what comes first: an implementation unless an earlier one has its symbol, and a
builtin unless an earlier one has its name and takes the same arguments. The symbol of an
implementation that is found stands for the fixed-point implementation of the same builtin. -/
theorem lookupsFindFirst (made : create decls = .ok r) :
    (∀ k m, r.implementations[k]? = some m → ∃ d, r.Owns k ⟨d, m⟩ ∧
      (r.findSymbol? m.symbol = some ⟨d, m⟩ ↔ r.OpensSymbol k m.symbol) ∧
      ∃ fixed ∈ r.members d, r.implementationFor? d .fixedPoint = some fixed ∧
        (m.variant = some .float → fixed.variant = some .fixedPoint) ∧
        (r.OpensSymbol k m.symbol → ∀ target format site i s, i.callee = m.symbol →
          site.signature? i.callee = none → ∃ plan sig s',
            (Lowering.resolveCallee ⟨r, target, format⟩ site i).Gives s ⟨fixed.symbol, sig, plan⟩ s')) ∧
    ∀ n d, r.descriptors[n]? = some d →
      (r.find? d.prototype.name d.prototype.paramTypes = some d ↔ r.OpensCall n d.prototype) := by
  refine ⟨fun k m place => ?_, fun n d place => findIff made place⟩
  obtain ⟨d, owns⟩ := (createBuilt made).indexed.hit place
  obtain ⟨fixed, among, serves, paired⟩ := fixedMember made owns
  refine ⟨d, owns, findSymbolIff made owns, fixed, among, serves, paired,
    fun opens target format site i s callee foreign => ?_⟩
  have found := (findSymbolIff made owns).mpr opens
  rw [← callee] at found
  exact Lowering.symbolTargetGives (c := ⟨r, target, format⟩) foreign found serves

section Blend

def blendOf (returns : ShaderTy) (v : Variant) (symbol : String) : Implementation :=
  ⟨⟨"blend", returns, [⟨"x", .float, .input⟩]⟩, some v, symbol, "", none⟩

def blends : List Implementation :=
  [blendOf .float .float "blend_f32", blendOf .float .fixedPoint "blend_q32",
    blendOf .vec2 .float "blend_f32", blendOf .vec2 .fixedPoint "blend2_q32"]

def blendRegistry : Registry where
  implementations := blends
  descriptors := [⟨(blendOf .float .float "").prototype, true, [0, 1]⟩,
    ⟨(blendOf .vec2 .float "").prototype, true, [2, 3]⟩]
  owners := [0, 0, 1, 1]

theorem blendsMade : create blends = .ok blendRegistry := rfl

def hiddenBlend : SymbolHit :=
  ⟨⟨(blendOf .vec2 .float "").prototype, true, [2, 3]⟩, blendOf .vec2 .float "blend_f32"⟩

/-- The second builtin is found neither by its symbol nor by its name and arguments, and a call of
its symbol goes to the fixed-point implementation of the first one. -/
theorem secondBlendHidden :
    create blends = .ok blendRegistry ∧ blendRegistry.Owns 2 hiddenBlend ∧
    blendRegistry.findSymbol? "blend_f32" ≠ some hiddenBlend ∧
    blendRegistry.find? "blend" [.float] ≠ some hiddenBlend.descriptor ∧
    blendRegistry.implementationFor? hiddenBlend.descriptor .fixedPoint =
      some (blendOf .vec2 .fixedPoint "blend2_q32") ∧
    ∀ target format site i s, i.callee = "blend_f32" → site.signature? i.callee = none →
      ∃ plan sig s', (Lowering.resolveCallee ⟨blendRegistry, target, format⟩ site i).Gives s
        ⟨"blend_q32", sig, plan⟩ s' := by
  refine ⟨blendsMade, ⟨rfl, ⟨1, rfl, rfl⟩, List.mem_cons_self⟩, fun same => ?_, by decide +kernel,
    rfl, fun target format site i s callee foreign => ?_⟩
  · have returns := congrArg (Option.map fun hit => hit.descriptor.prototype.returns) same
    exact absurd returns (by decide +kernel)
  · have found : blendRegistry.findSymbol? i.callee =
        some ⟨⟨(blendOf .float .float "").prototype, true, [0, 1]⟩,
          blendOf .float .float "blend_f32"⟩ := by
      rw [callee]
      rfl
    exact Lowering.symbolTargetGives (c := ⟨blendRegistry, target, format⟩)
      (m := blendOf .float .fixedPoint "blend_q32") foreign found rfl

def blendCall : Instr :=
  { Instr.blank .call with
    type := .f32, results := [⟨1, .f32⟩], operands := [.temp 0], callee := "blend_f32" }

theorem firstBlendFound : create blends = .ok blendRegistry ∧
    (∃ d fixed, blendRegistry.Owns 0 ⟨d, blendOf .float .float "blend_f32"⟩ ∧
      blendRegistry.findSymbol? "blend_f32" = some ⟨d, blendOf .float .float "blend_f32"⟩ ∧
      fixed ∈ blendRegistry.members d ∧ fixed.variant = some .fixedPoint ∧
      ∀ target format encoding s, ∃ plan sig s',
        (Lowering.resolveCallee ⟨blendRegistry, target, format⟩
          ⟨⟨[], []⟩, .blank "" default, encoding⟩ blendCall).Gives s ⟨fixed.symbol, sig, plan⟩ s') ∧
    blendRegistry.find? "blend" [.float] =
      some ⟨(blendOf .float .float "").prototype, true, [0, 1]⟩ := by
  obtain ⟨bySymbol, byCall⟩ := lookupsFindFirst blendsMade
  obtain ⟨d, owns, found, fixed, among, -, paired, redirects⟩ := bySymbol 0 _ rfl
  have first : blendRegistry.OpensSymbol 0 "blend_f32" := fun j m before =>
    absurd before j.not_lt_zero
  refine ⟨blendsMade, ⟨d, fixed, owns, found.mpr first, among, paired rfl,
    fun target format encoding s => redirects first target format _ _ s rfl rfl⟩, ?_⟩
  exact (byCall 0 _ rfl).mpr fun j d before => absurd before j.not_lt_zero

end Blend

end Builtin.Registry
end FixedIL
