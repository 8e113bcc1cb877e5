import FixedIL.Builtin.Catalog
import FixedIL.Proofs.FlatSignatures
import FixedIL.Proofs.PrototypeReading

/-!
The routines behind a registry. If no two implementations share a symbol, the symbol of each leads
to its own routine. Those of the catalog write a word for each lane that their builtin gives.
-/
namespace FixedIL

namespace Builtin

structure Implementation.Answers (m : Implementation) (routine : NativeRoutine) : Prop where
  own : m.routine = some routine
  lanes : ∀ cells, ∃ lanes : List (List UInt8), routine cells = lanes.flatten ∧
    lanes.length = m.prototype.returns.lanes ∧
    ∀ lane ∈ lanes, lane.length = (laneTy .fixedPoint m.prototype.returns).size

namespace Registry

/-- The routine of an implementation, which its symbol leads to. It answers with the lanes of the
builtin. -/
structure Backs (r : Registry) (d : Descriptor) (m : Implementation) (routine : NativeRoutine) :
    Prop where
  own : m.routine = some routine
  found : (r.findSymbol? m.symbol).bind (·.implementation.routine) = some routine
  lanes : ∀ cells, ∃ lanes : List (List UInt8), routine cells = lanes.flatten ∧
    lanes.length = d.prototype.returns.lanes ∧
    ∀ lane ∈ lanes, lane.length = (laneTy .fixedPoint d.prototype.returns).size

def Backed (r : Registry) : Prop :=
  ∀ symbol hit m, r.findSymbol? symbol = some hit →
    r.implementationFor? hit.descriptor .fixedPoint = some m →
    ∃ routine, r.Backs hit.descriptor m routine

variable {r : Registry} {decls : List Implementation} {m : Implementation} {k : Nat}

theorem opensApart (apart : (r.implementations.map Implementation.symbol).Nodup)
    (place : r.implementations[k]? = some m) : r.OpensSymbol k m.symbol := by
  intro j m' before place'
  obtain ⟨inside, rfl⟩ := List.getElem?_eq_some_iff.mp place
  obtain ⟨inside', rfl⟩ := List.getElem?_eq_some_iff.mp place'
  exact List.pairwise_iff_getElem.mp (List.pairwise_map.mp apart) j k inside' inside before

theorem backedApart (made : create decls = .ok r)
    (apart : (decls.map Implementation.symbol).Nodup)
    (answers : ∀ m ∈ decls, ∃ routine, m.Answers routine) : r.Backed := by
  intro symbol hit m found fixed
  have indexed := (createBuilt made).indexed
  have same : r.implementations.Perm decls := by
    rw [(createBuilt made).implementations]
    exact groupedPerm decls
  obtain ⟨j, owns⟩ := indexed.owns found
  obtain ⟨k, member, place⟩ := implementationMember fixed
  obtain ⟨d, own⟩ := indexed.hit place
  obtain ⟨routine, answers⟩ := answers m (same.subset (List.mem_of_getElem? place))
  have opens := opensApart ((same.map _).nodup_iff.mpr apart) place
  have among : m ∈ r.members hit.descriptor := List.mem_filterMap.mpr ⟨k, member, place⟩
  obtain ⟨-, returns, -⟩ := Prototype.matchesIff.mp (indexed.alike owns.known among)
  refine ⟨routine, answers.own, ?_, ?_⟩
  · rw [(findSymbolIff made own).mpr opens]
    exact answers.own
  · rw [returns]
    exact answers.lanes

end Registry

section Catalog

structure CatalogRow.Writes (row : CatalogRow) (t : ShaderTy) : Prop where
  returns : (Prototype.parse row.prototype).toOption.map Prototype.returns = some t
  wide : laneTy .fixedPoint t = .i32
  lanes : ∀ cells, ∃ written, row.routine cells = NativeRoutine.laneBytes written ∧
    written.length = t.lanes

def catalogReturns : List ShaderTy :=
  [.float, .float, .float, .float, .float, .float, .vec3, .vec3, .vec3, .vec3, .vec4, .vec4,
    .vec3, .vec3, .vec4, .vec4, .vec2, .vec2, .uint]

theorem rowsWrite : List.Forall₂ CatalogRow.Writes catalogRows catalogReturns := by
  unfold catalogRows catalogReturns
  repeat refine .cons ⟨by decide +kernel, rfl, fun _ => ⟨_, rfl, rfl⟩⟩ ?_
  exact .nil

variable {row : CatalogRow} {m : Implementation} {t : ShaderTy} {decls : List Implementation}

theorem CatalogRow.declareOk (declared : row.declare = .ok m) :
    ∃ p, Prototype.parse row.prototype = .ok p ∧ m.prototype = p ∧ m.symbol = row.symbol ∧
      m.routine = some row.routine := by
  unfold declare at declared
  split at declared
  · cases declared
  · rename_i p parsed
    cases declared
    exact ⟨p, parsed, rfl, rfl, rfl⟩

theorem CatalogRow.Writes.answers (writes : row.Writes t) (declared : row.declare = .ok m) :
    ∃ routine, m.Answers routine := by
  obtain ⟨p, parsed, rfl, -, own⟩ := declareOk declared
  obtain ⟨returns, wide, lanes⟩ := writes
  rw [parsed] at returns
  obtain rfl := Option.some.inj returns
  refine ⟨row.routine, own, fun cells => ?_⟩
  obtain ⟨written, is, count⟩ := lanes cells
  refine ⟨written.map fun lane => Bytes.ofWord 4 lane.toUInt64, ?_, ?_, ?_⟩
  · rw [is]
    exact List.flatMap_def ..
  · rw [List.length_map, count]
  · rw [wide]
    exact List.forall_mem_map.mpr fun lane _ => Bytes.ofWordLength 4 lane.toUInt64

theorem catalogDeclares (read : catalog = .ok decls) :
    List.Forall₂ (fun row m => row.declare = .ok m) catalogRows decls := by
  rw [catalog] at read
  generalize catalogRows = rows at read
  induction rows generalizing decls with
  | nil =>
    cases read
    exact .nil
  | cons row rows ih =>
    rw [List.mapM_cons] at read
    obtain ⟨m, declared, read⟩ := boundIff.mp read
    obtain ⟨ms, others, same⟩ := boundIff.mp read
    cases same
    exact .cons declared (ih others)

theorem catalogSymbols : (catalogRows.map CatalogRow.symbol).Nodup := by decide +kernel

theorem catalogBacked {r : Registry} (made : defaultRegistry = .ok r) : r.Backed := by
  delta defaultRegistry at made
  cases read : catalog with
  | error d =>
    rw [read] at made
    cases made
  | ok decls =>
    rw [read] at made
    have declared := catalogDeclares read
    refine Registry.backedApart made ?_ fun m member => ?_
    · have symbols : catalogRows.map CatalogRow.symbol = decls.map Implementation.symbol := by
        rw [← List.forall₂_eq_eq_eq, List.forall₂_map_left_iff, List.forall₂_map_right_iff]
        refine declared.imp fun row m is => ?_
        obtain ⟨-, -, -, symbol, -⟩ := CatalogRow.declareOk is
        exact symbol.symm
      exact symbols ▸ catalogSymbols
    · obtain ⟨row, among, is⟩ := partner declared.flip member
      obtain ⟨t, -, writes⟩ := partner rowsWrite among
      exact writes.answers is

end Catalog

end Builtin
end FixedIL
