import FixedIL.Lowering.Convert
import FixedIL.Proofs.RegistryGroups
import Mathlib.Data.List.Forall2

/-!
What a registry holds: all that was declared, each implementation under one builtin, and for each
builtin an implementation in either domain. Groups are added one behind the other, and a new one
leaves the indices of all others as they are.
-/
namespace FixedIL
namespace Builtin.Registry

variable {r : Registry} {decls : List Implementation} {d d' : Descriptor} {m : Implementation}
  {g : Group} {gs gs' : List Group} {k n : Nat}

section Indices

theorem insertedPerm (m : Implementation) (gs : List Group) :
    (insertGrouped m gs).flatten.Perm (gs.flatten ++ [m]) := by
  induction gs with
  | nil => exact .refl _
  | cons g rest ih =>
    rw [insertGrouped]
    split
    · simp only [List.flatten_cons, List.append_assoc]
      have behind : ([m] ++ rest.flatten).Perm (rest.flatten ++ [m]) := List.perm_append_comm
      exact behind.append_left g
    · simp only [List.flatten_cons, List.append_assoc]
      exact ih.append_left g

theorem groupedPerm (decls : List Implementation) : (groups decls).flatten.Perm decls := by
  induction decls using List.reverseRecOn with
  | nil => exact .refl _
  | append_singleton decls m ih =>
    rw [groups, List.foldl_append]
    exact (insertedPerm m (groups decls)).trans (ih.append_right [m])

structure Indexed (r : Registry) : Prop where
  sizes : r.owners.length = r.implementations.length
  owned : ∀ k m, r.implementations[k]? = some m → ∃ n, ∃ d : Descriptor, r.owners[k]? = some n ∧
    r.descriptors[n]? = some d ∧ k ∈ d.members ∧ d.prototype.Matches m.prototype
  member : ∀ n (d : Descriptor), r.descriptors[n]? = some d → ∀ k ∈ d.members, r.owners[k]? = some n

theorem Indexed.inside (indexed : r.Indexed) (known : d ∈ r.descriptors) (among : k ∈ d.members) :
    k < r.implementations.length := by
  obtain ⟨n, place⟩ := List.getElem?_of_mem known
  have owner := indexed.member n d place k among
  rw [← indexed.sizes]
  exact (List.getElem?_eq_some_iff.mp owner).1

def Uniform (g : Group) : Prop :=
  ∃ head rest, g = head :: rest ∧ ∀ m ∈ g, head.prototype.Matches m.prototype

theorem groupUniform (member : g ∈ groups decls) : Uniform g := by
  obtain ⟨d, declared, rfl⟩ := memGroups.mp member
  obtain ⟨head, rest, is, same⟩ := familyHead declared
  exact ⟨head, rest, is, fun m own => same.symm.trans (memFamily.mp own).2⟩

theorem addedIndexed (indexed : r.Indexed) (uniform : Uniform g) : (r.addGroup g).Indexed := by
  obtain ⟨head, rest, rfl, alike⟩ := uniform
  have sizes := indexed.sizes
  have owner (k : Nat) (old : r.implementations.length ≤ k)
      (new : k < r.implementations.length + (head :: rest).length) :
      (r.addGroup (head :: rest)).owners[k]? = some r.descriptors.length := by
    rw [addGroup, List.getElem?_append_right (by omega), List.getElem?_replicate, if_pos (by omega)]
  refine ⟨?_, fun k m place => ?_, fun n d place k among => ?_⟩
  · simp [addGroup, sizes]
  · rw [addGroup, List.getElem?_append] at place
    split at place
    · obtain ⟨n, d, owned, known, among, same⟩ := indexed.owned k m place
      exact ⟨n, d, List.getElem?_append_left (List.getElem?_eq_some_iff.mp owned).1 ▸ owned,
        List.getElem?_append_left (List.getElem?_eq_some_iff.mp known).1 ▸ known, among, same⟩
    · rename_i old
      have new := (List.getElem?_eq_some_iff.mp place).1
      refine ⟨_, _, owner k (by omega) (by omega), List.getElem?_concat_length, ?_,
        alike m (List.mem_of_getElem? place)⟩
      exact List.mem_range'_1.mpr ⟨by omega, by omega⟩
  · rw [addGroup, List.getElem?_append] at place
    split at place
    · have owned := indexed.member n d place k among
      exact List.getElem?_append_left (List.getElem?_eq_some_iff.mp owned).1 ▸ owned
    · obtain ⟨last, is⟩ := List.getElem?_eq_some_iff.mp place
      have position : n = r.descriptors.length := by
        rw [List.length_singleton] at last
        omega
      subst position
      simp only [Nat.sub_self, List.getElem_cons_zero] at is
      rw [← is] at among
      obtain ⟨low, high⟩ := List.mem_range'_1.mp among
      exact owner k low high

end Indices

section Members

theorem rangeMembers (front g : List Implementation) :
    (List.range' front.length g.length).filterMap (fun k => (front ++ g)[k]?) = g := by
  induction g generalizing front with
  | nil => rfl
  | cons m rest ih =>
    have next := ih (front ++ [m])
    rw [List.length_append, List.length_singleton, List.append_assoc, List.singleton_append] at next
    rw [List.length_cons, List.range'_succ, List.filterMap_cons,
      List.getElem?_append_right (Nat.le_refl _), Nat.sub_self, List.getElem?_cons_zero, next]

def Describes (r : Registry) (d : Descriptor) (g : Group) : Prop :=
  (∃ head rest, g = head :: rest ∧ d.prototype = head.prototype) ∧ r.members d = g

structure Built (r : Registry) (gs : List Group) : Prop where
  indexed : r.Indexed
  described : List.Forall₂ r.Describes r.descriptors gs
  implementations : r.implementations = gs.flatten

theorem builtAdded (built : r.Built gs) (uniform : Uniform g) :
    (r.addGroup g).Built (gs ++ [g]) := by
  refine ⟨addedIndexed built.indexed uniform, ?_, ?_⟩
  · obtain ⟨head, rest, rfl, -⟩ := uniform
    have kept (d : Descriptor) (known : d ∈ r.descriptors) :
        (r.addGroup (head :: rest)).members d = r.members d := by
      refine List.filterMap_congr fun k among => ?_
      exact List.getElem?_append_left (built.indexed.inside known among)
    have old : List.Forall₂ (r.addGroup (head :: rest)).Describes r.descriptors gs :=
      (List.forall₂_and_left _ _ |>.mpr ⟨kept, built.described⟩).imp
        fun d g ⟨same, first, own⟩ => ⟨first, same.trans own⟩
    refine List.rel_append old (.cons ⟨⟨head, rest, rfl, rfl⟩, ?_⟩ .nil)
    exact rangeMembers r.implementations (head :: rest)
  · obtain ⟨head, rest, rfl, -⟩ := uniform
    rw [List.flatten_append, List.flatten_singleton, ← built.implementations]
    rfl

theorem builtFrom (built : r.Built gs) (uniform : ∀ g ∈ gs', Uniform g) :
    (gs'.foldl addGroup r).Built (gs ++ gs') := by
  induction gs' generalizing r gs with
  | nil =>
    rw [List.append_nil]
    exact built
  | cons g rest ih =>
    rw [List.append_cons]
    exact ih (builtAdded built (uniform g List.mem_cons_self))
      fun g' member => uniform g' (List.mem_cons_of_mem _ member)

theorem createBuilt (made : create decls = .ok r) : r.Built (groups decls) := by
  have nothing : empty.Built [] := ⟨⟨rfl, nofun, nofun⟩, .nil, rfl⟩
  rw [create] at made
  split at made
  · cases made
  · cases made
    exact builtFrom nothing fun g member => groupUniform member

theorem createOpened (made : create decls = .ok r) :
    List.Forall₂ (fun d m => m.prototype.Matches d.prototype) r.descriptors (openings decls) := by
  have described := (createBuilt made).described
  rw [groupsFamilies, List.forall₂_map_right_iff] at described
  refine described.imp fun d m ⟨⟨head, rest, is, same⟩, _⟩ => ?_
  have own : head ∈ family decls m.prototype := is ▸ List.mem_cons_self
  rw [same]
  exact (memFamily.mp own).2

theorem descriptorsApart (made : create decls = .ok r) :
    r.descriptors.Pairwise fun d d' => ¬ d.prototype.Matches d'.prototype := by
  have apart := (openingsOpen decls).apart
  have opened := createOpened made
  generalize openings decls = ms at opened apart
  generalize r.descriptors = ds at opened
  induction opened with
  | nil => exact .nil
  | @cons d m ds ms own others ih =>
    obtain ⟨first, rest⟩ := List.pairwise_cons.mp apart
    refine List.pairwise_cons.mpr ⟨fun d' known same => ?_, ih rest⟩
    obtain ⟨m', known', own'⟩ := partner others known
    exact first m' known' (own.trans (same.trans own'.symm))

theorem createPaired (made : create decls = .ok r) (known : d ∈ r.descriptors) :
    WellPaired (r.members d) := by
  obtain ⟨g, member, -, own⟩ := partner (createBuilt made).described known
  obtain ⟨m, declared, is⟩ := memGroups.mp member
  rw [own, is]
  exact createSucceeds.mp ⟨r, made⟩ m declared

theorem implementationMember {v : Variant} (serves : r.implementationFor? d v = some m) :
    ∃ k ∈ d.members, r.implementations[k]? = some m := by
  have found : m ∈ r.members d := by
    rw [implementationFor?] at serves
    cases first : (r.members d).find? (fun m => m.variant = some v) with
    | none =>
      rw [first] at serves
      exact List.mem_of_find?_eq_some serves
    | some m' =>
      rw [first] at serves
      cases serves
      exact List.mem_of_find?_eq_some first
  exact List.mem_filterMap.mp found

theorem pairedServes (paired : WellPaired (r.members d)) (v : Variant) :
    ∃ m ∈ r.members d, r.implementationFor? d v = some m ∧
      (m.variant = some v ∨ (m.variant = none ∧ r.members d = [m])) := by
  unfold implementationFor?
  rcases paired with ⟨one, untaggedOne⟩ | ⟨-, float, fixed⟩
  · obtain ⟨m, only⟩ := List.length_eq_one_iff.mp one
    have tag : m.variant = none := by
      cases isTag : m.variant with
      | none => rfl
      | some v => simp [only, untagged, isTag] at untaggedOne
    rw [only]
    exact ⟨m, List.mem_cons_self, by simp [tag], .inr ⟨tag, rfl⟩⟩
  · have own : (tagged (r.members d) v).length = 1 := by cases v <;> assumption
    obtain ⟨m, only⟩ := List.length_eq_one_iff.mp own
    have among : m ∈ tagged (r.members d) v := only ▸ List.mem_cons_self
    obtain ⟨member, tag⟩ := List.mem_filter.mp among
    have served : ((r.members d).find? fun m => decide (m.variant = some v)).isSome :=
      List.find?_isSome.mpr ⟨m, member, tag⟩
    obtain ⟨m', found⟩ := Option.isSome_iff_exists.mp served
    rw [found]
    have tag' : m'.variant = some v := by simpa using List.find?_some found
    exact ⟨m', List.mem_of_find?_eq_some found, rfl, .inl tag'⟩

end Members

structure OwnedOnce (r : Registry) (k : Nat) (m : Implementation) : Prop where
  owner : ∃ n, ∃ d : Descriptor, r.owners[k]? = some n ∧ r.descriptors[n]? = some d ∧
    k ∈ d.members ∧ d.prototype.Matches m.prototype ∧
    ∀ n', ∀ d' : Descriptor, r.descriptors[n']? = some d' → k ∈ d'.members → n' = n

theorem hitDescriptor {symbol : String} {hit : SymbolHit}
    (found : r.findSymbol? symbol = some hit) : hit.descriptor ∈ r.descriptors := by
  simp only [findSymbol?, Option.bind_eq_bind, Option.bind_eq_some_iff] at found
  obtain ⟨k, -, m, -, owner, -, d, place, made⟩ := found
  cases made
  exact List.mem_of_getElem? place

theorem Indexed.once (indexed : r.Indexed) (place : r.implementations[k]? = some m) :
    r.OwnedOnce k m := by
  obtain ⟨n, d, owned, known, among, same⟩ := indexed.owned k m place
  refine ⟨n, d, owned, known, among, same, fun n' d' known' among' => ?_⟩
  have owned' := indexed.member n' d' known' k among'
  exact Option.some.inj (owned'.symm.trans owned)

end Builtin.Registry

namespace Lowering

open Builtin.Registry

variable {c : Config} {site : Site} {i : Instr} {d : Builtin.Descriptor} {s : PassState}

theorem servedTarget {m : Builtin.Implementation}
    (serves : c.registry.implementationFor? d .fixedPoint = some m) {e : LoweringError}
    (failed : ((builtinTarget c site i d).run s).1 = .error e) : e.kind = .shapeMismatch := by
  unfold builtinTarget at failed
  simp only [serves] at failed
  split at failed
  · cases failed
  · cases failed
    rfl
  · cases failed
    rfl

end Lowering

namespace Builtin.Registry

variable {r : Registry} {decls : List Implementation}

/-- A registry holds every declaration under the one builtin that it belongs to, and serves both
domains, so that lowering never finds a known builtin without an implementation. -/
theorem registryComplete (made : create decls = .ok r) :
    r.implementations.Perm decls ∧
    (∀ k m, r.implementations[k]? = some m → r.OwnedOnce k m) ∧
    (∀ d ∈ r.descriptors, ∀ k ∈ d.members, k < r.implementations.length) ∧
    (r.descriptors.Pairwise fun d d' => ¬ d.prototype.Matches d'.prototype) ∧
    (∀ d ∈ r.descriptors, ∀ v, ∃ m ∈ r.members d, r.implementationFor? d v = some m ∧
      (m.variant = some v ∨ (m.variant = none ∧ r.members d = [m]))) ∧
    ∀ target format site i s hit e, r.findSymbol? i.callee = some hit →
      ((Lowering.builtinTarget ⟨r, target, format⟩ site i hit.descriptor).run s).1 = .error e →
      e.kind ≠ .unknownFunction := by
  have built := createBuilt made
  have serves (d : Descriptor) (known : d ∈ r.descriptors) (v : Variant) :=
    pairedServes (createPaired made known) v
  refine ⟨?_, fun k m place => built.indexed.once place,
    fun d known k among => built.indexed.inside known among, descriptorsApart made, serves, ?_⟩
  · rw [built.implementations]
    exact groupedPerm decls
  · intro target format site i s hit e found failed
    obtain ⟨m, -, fixed, -⟩ := serves hit.descriptor (hitDescriptor found) .fixedPoint
    rw [Lowering.servedTarget (c := ⟨r, target, format⟩) fixed failed]
    decide

theorem scalesComplete :
    ∃ r, create [scaleOf .vec2 (some .float), scaleOf .vec3 none, scaleOf .vec2 (some .fixedPoint)] =
        .ok r ∧
      r.implementations.map (fun m => (m.symbol, m.variant)) =
        [("scale_vec2", some .float), ("scale_vec2", some .fixedPoint), ("scale_vec3", none)] ∧
      (∀ k m, r.implementations[k]? = some m → r.OwnedOnce k m) ∧
      ∀ d ∈ r.descriptors, ∀ v, ∃ m ∈ r.members d, r.implementationFor? d v = some m ∧
        (m.variant = some v ∨ (m.variant = none ∧ r.members d = [m])) := by
  have checked : (create [scaleOf .vec2 (some .float), scaleOf .vec3 none,
      scaleOf .vec2 (some .fixedPoint)]).toOption.any (fun r =>
        r.implementations.map (fun m => (m.symbol, m.variant)) =
          [("scale_vec2", some .float), ("scale_vec2", some .fixedPoint), ("scale_vec3", none)]) =
      true := by decide +kernel
  obtain ⟨r, run, rows⟩ := (Option.any_eq_true _ _).mp checked
  have made := okOfOption run
  obtain ⟨-, once, -, -, serves, -⟩ := registryComplete made
  exact ⟨r, made, of_decide_eq_true rows, once, serves⟩

end Builtin.Registry
end FixedIL
