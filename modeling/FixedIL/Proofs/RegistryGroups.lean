import FixedIL.Builtin.Catalog
import FixedIL.Proofs.PassSteps
import FixedIL.Proofs.PrototypeKeys
import Mathlib.Data.Option.Basic

/-!
Which declarations make a registry. The declarations of one builtin are its family; a registry is
made if every family is a single untagged declaration or one for each domain. Otherwise the first
declaration whose family is neither names the builtin in the error.
-/
namespace FixedIL.Builtin.Registry

def family (decls : List Implementation) (p : Prototype) : Group :=
  decls.filter fun d => p.Matches d.prototype

/-- A single declaration for both domains, or one for each. -/
def WellPaired (g : Group) : Prop :=
  (g.length = 1 ∧ (untagged g).length = 1) ∨
    (g.length = 2 ∧ (tagged g .float).length = 1 ∧ (tagged g .fixedPoint).length = 1)

def Clashes (g : Group) : Prop :=
  1 < (tagged g .float).length ∨ 1 < (tagged g .fixedPoint).length ∨
    (0 < (untagged g).length ∧ 1 < g.length)

def HasCounterpart (decls : List Implementation) (p : Prototype) (v : Variant) : Prop :=
  ∃ d ∈ decls, d.prototype.name = p.name ∧ ¬ p.Matches d.prototype ∧
    (tagged (family decls d.prototype) v).length = 1 ∧
    (tagged (family decls d.prototype) v.other).length = 0

instance (g : Group) : Decidable (WellPaired g) := by unfold WellPaired; infer_instance

instance (g : Group) : Decidable (Clashes g) := by unfold Clashes; infer_instance

instance (decls : List Implementation) (p : Prototype) (v : Variant) :
    Decidable (HasCounterpart decls p v) := by unfold HasCounterpart; infer_instance

def unserved (g : Group) : Variant := if (tagged g .float).isEmpty then .float else .fixedPoint

def refusal (decls : List Implementation) (p : Prototype) : ErrorKind :=
  let g := family decls p
  if Clashes g then .duplicateVariant
  else if HasCounterpart decls p (unserved g) then .signatureMismatch
  else .missingVariant

variable {decls : List Implementation} {d h : Implementation} {g : Group} {p q : Prototype}
  {e : LoweringError}

section Counting

theorem groupCount (g : Group) :
    g.length = (untagged g).length + (tagged g .float).length + (tagged g .fixedPoint).length := by
  induction g with
  | nil => rfl
  | cons d rest ih =>
    rcases isTag : d.variant with _ | _ | _ <;>
    · simp [untagged, tagged, isTag] at ih ⊢
      omega

theorem someTagged (g : Group) :
    (g.filter fun d => d.variant.isSome).length =
      (tagged g .float).length + (tagged g .fixedPoint).length := by
  induction g with
  | nil => rfl
  | cons d rest ih =>
    rcases isTag : d.variant with _ | _ | _ <;>
    · simp [tagged, isTag] at ih ⊢
      omega

theorem clashNone {name variant : String} {ds : List Implementation} :
    clash? name variant ds = none ↔ ds.length ≤ 1 := by
  unfold clash?
  split
  · simp
  · rename_i few
    match ds, few with
    | [], _ => simp
    | [_], _ => simp
    | a :: b :: rest, few => exact absurd rfl (few a b rest)

theorem clashSome {name variant : String} {ds : List Implementation}
    (clash : clash? name variant ds = some e) :
    e.builtin = name ∧ e.kind = .duplicateVariant ∧ 1 < ds.length := by
  unfold clash? at clash
  split at clash
  · cases clash
    exact ⟨rfl, rfl, by simp⟩
  · cases clash

theorem untaggedClashNone {name : String} :
    untaggedClash? name g = none ↔ ¬ (0 < (untagged g).length ∧ 1 < g.length) := by
  have count := groupCount g
  unfold untaggedClash?
  split
  · rename_i none
    simp [none]
  · rename_i u more some
    rw [clashNone, List.length_append, List.length_take, someTagged, count, some, List.length_cons]
    omega

theorem untaggedClashSome {name : String} (clash : untaggedClash? name g = some e) :
    e.builtin = name ∧ e.kind = .duplicateVariant ∧ 0 < (untagged g).length ∧ 1 < g.length := by
  have beside : 0 < (untagged g).length ∧ 1 < g.length := by
    by_contra alone
    rw [untaggedClashNone.mpr alone] at clash
    cases clash
  unfold untaggedClash? at clash
  split at clash
  · cases clash
  · obtain ⟨builtin, kind, -⟩ := clashSome clash
    exact ⟨builtin, kind, beside⟩

theorem pairingNone {all : List Group} :
    pairing? all g = none ↔ (tagged g .float).length + (tagged g .fixedPoint).length ≠ 1 := by
  unfold pairing?
  split
  · rename_i float fixed
    simp [float, fixed]
  · rename_i d float fixed
    simp [float, fixed]
  · rename_i d float fixed
    simp [float, fixed]
  · rename_i neither onlyFloat onlyFixed
    rcases float : tagged g .float with _ | ⟨a, _ | ⟨a', as⟩⟩ <;>
      rcases fixed : tagged g .fixedPoint with _ | ⟨b, _ | ⟨b', bs⟩⟩ <;>
      (simp_all; try omega)

end Counting

section Families

theorem memFamily : d ∈ family decls p ↔ d ∈ decls ∧ p.Matches d.prototype := by
  simp [family]

theorem familyCongr (same : p.Matches q) : family decls p = family decls q := by
  refine List.filter_congr fun d _ => decide_eq_decide.mpr ⟨fun first => ?_, fun second => ?_⟩
  · exact same.symm.trans first
  · exact same.trans second

theorem familySnoc (decls : List Implementation) (d : Implementation) (p : Prototype) :
    family (decls ++ [d]) p = family decls p ++ if p.Matches d.prototype then [d] else [] := by
  simp only [family, List.filter_append, List.filter_cons, List.filter_nil, decide_eq_true_eq]

theorem familyHead (member : d ∈ decls) : ∃ head rest, family decls d.prototype = head :: rest ∧
    d.prototype.Matches head.prototype := by
  have own : d ∈ family decls d.prototype := memFamily.mpr ⟨member, d.prototype.matchesRefl⟩
  obtain ⟨head, rest, is⟩ := List.exists_cons_of_ne_nil (List.ne_nil_of_mem own)
  exact ⟨head, rest, is, (memFamily.mp (is ▸ List.mem_cons_self)).2⟩

def openings (decls : List Implementation) : List Implementation :=
  decls.foldl (fun hs d => if hs.any fun h => h.prototype.Matches d.prototype then hs else hs ++ [d])
    []

theorem openingsSnoc (decls : List Implementation) (d : Implementation) :
    openings (decls ++ [d]) =
      if (openings decls).any fun h => h.prototype.Matches d.prototype then openings decls
      else openings decls ++ [d] := by
  rw [openings, List.foldl_append]
  rfl

/-- Every declaration belongs to one of the openings, which are declarations of builtins of their
own. -/
structure Opens (decls hs : List Implementation) : Prop where
  among : ∀ h ∈ hs, h ∈ decls
  each : ∀ d ∈ decls, ∃ h ∈ hs, h.prototype.Matches d.prototype
  apart : hs.Pairwise fun h h' => ¬ h.prototype.Matches h'.prototype

theorem openingsOpen (decls : List Implementation) : Opens decls (openings decls) := by
  induction decls using List.reverseRecOn with
  | nil => exact ⟨nofun, nofun, .nil⟩
  | append_singleton decls d ih =>
    rw [openingsSnoc]
    split
    · rename_i known
      obtain ⟨h, opened, same⟩ := List.any_eq_true.mp known
      refine ⟨fun h member => List.mem_append_left _ (ih.among h member), fun d' member => ?_,
        ih.apart⟩
      rcases List.mem_append.mp member with old | new
      · exact ih.each d' old
      · rw [List.mem_singleton.mp new]
        exact ⟨h, opened, of_decide_eq_true same⟩
    · rename_i unknown
      refine ⟨fun h member => ?_, fun d' member => ?_, List.pairwise_append.mpr
        ⟨ih.apart, List.pairwise_singleton _ _, fun h member d' last same => unknown ?_⟩⟩
      · rcases List.mem_append.mp member with old | new
        · exact List.mem_append_left _ (ih.among h old)
        · exact List.mem_append_right _ new
      · rcases List.mem_append.mp member with old | new
        · obtain ⟨h, opened, same⟩ := ih.each d' old
          exact ⟨h, List.mem_append_left _ opened, same⟩
        · exact ⟨d', List.mem_append_right _ new, d'.prototype.matchesRefl⟩
      · rw [List.mem_singleton.mp last] at same
        exact List.any_eq_true.mpr ⟨h, member, decide_eq_true same⟩

theorem insertNext (d head : Implementation) (more : Group) (gs : List Group) :
    insertGrouped d ((head :: more) :: gs) =
      if head.prototype.Matches d.prototype then (head :: more ++ [d]) :: gs
      else (head :: more) :: insertGrouped d gs := by
  simp only [insertGrouped, List.head?_cons, Option.any_some, Prototype.keyMatches,
    decide_eq_true_eq]

theorem insertFamily {hs : List Implementation} (among : ∀ h ∈ hs, h ∈ decls)
    (apart : hs.Pairwise fun h h' => ¬ h.prototype.Matches h'.prototype) :
    insertGrouped d (hs.map fun h => family decls h.prototype) =
      (hs.map fun h => family (decls ++ [d]) h.prototype) ++
        if hs.any fun h => h.prototype.Matches d.prototype then [] else [[d]] := by
  induction hs with
  | nil => rfl
  | cons h rest ih =>
    obtain ⟨others, apart⟩ := List.pairwise_cons.mp apart
    obtain ⟨head, more, is, same⟩ := familyHead (among h List.mem_cons_self)
    have next := ih (fun h member => among h (List.mem_cons_of_mem _ member)) apart
    rw [List.map_cons, is, insertNext, ← is, List.map_cons, List.any_cons, familySnoc]
    by_cases own : h.prototype.Matches d.prototype
    · have last : rest.map (fun h => family (decls ++ [d]) h.prototype) =
          rest.map fun h => family decls h.prototype := by
        refine List.map_congr_left fun h' member => ?_
        have other : ¬ h'.prototype.Matches d.prototype := fun same' =>
          others h' member (own.trans same'.symm)
        rw [familySnoc, if_neg other, List.append_nil]
      rw [if_pos (same.symm.trans own), if_pos own, last]
      simp [own]
    · have foreign : ¬ head.prototype.Matches d.prototype := fun same' => own (same.trans same')
      rw [if_neg foreign, if_neg own, List.append_nil, decide_eq_false own, Bool.false_or, next,
        List.cons_append]

theorem groupsFamilies (decls : List Implementation) :
    groups decls = (openings decls).map fun h => family decls h.prototype := by
  induction decls using List.reverseRecOn with
  | nil => rfl
  | append_singleton decls d ih =>
    obtain ⟨among, each, apart⟩ := openingsOpen decls
    have grouped : groups (decls ++ [d]) = insertGrouped d (groups decls) := by
      rw [groups, List.foldl_append]
      rfl
    rw [grouped, ih, insertFamily among apart, openingsSnoc]
    split
    · rw [List.append_nil]
    · rename_i unknown
      have first : family decls d.prototype = [] := by
        refine List.filter_eq_nil_iff.mpr fun d' member same => unknown ?_
        obtain ⟨h, opened, same'⟩ := each d' member
        exact List.any_eq_true.mpr
          ⟨h, opened, decide_eq_true (same'.trans (of_decide_eq_true same).symm)⟩
      rw [List.map_append, List.map_singleton, familySnoc, first,
        if_pos d.prototype.matchesRefl, List.nil_append]

theorem memGroups : g ∈ groups decls ↔ ∃ d ∈ decls, g = family decls d.prototype := by
  obtain ⟨among, each, -⟩ := openingsOpen decls
  rw [groupsFamilies, List.mem_map]
  constructor
  · rintro ⟨h, opened, rfl⟩
    exact ⟨h, among h opened, rfl⟩
  · rintro ⟨d, member, rfl⟩
    obtain ⟨h, opened, same⟩ := each d member
    exact ⟨h, opened, familyCongr same⟩

theorem findOpened {β : Type} {look : Prototype → Option β}
    (alike : ∀ p q, p.Matches q → look p = look q) (decls : List Implementation) :
    (openings decls).findSome? (fun h => look h.prototype) =
      decls.findSome? fun d => look d.prototype := by
  induction decls using List.reverseRecOn with
  | nil => rfl
  | append_singleton decls d ih =>
    rw [openingsSnoc, List.findSome?_append, ← ih]
    split
    · rename_i known
      obtain ⟨h, opened, same⟩ := List.any_eq_true.mp known
      cases found : (openings decls).findSome? fun h => look h.prototype with
      | some b => rfl
      | none =>
        have nothing := List.findSome?_eq_none_iff.mp found h opened
        rw [alike _ _ (of_decide_eq_true same)] at nothing
        simp [nothing]
    · rw [List.findSome?_append]

end Families

section Refusals

theorem pairedIff (some : g ≠ []) : WellPaired g ↔
    ¬ Clashes g ∧ (tagged g .float).length + (tagged g .fixedPoint).length ≠ 1 := by
  have count := groupCount g
  have size := List.length_pos_iff.mpr some
  unfold WellPaired Clashes
  omega

theorem errorNone (all : List Group) (some : g ≠ []) :
    groupError? all g = none ↔ WellPaired g := by
  obtain ⟨head, rest, rfl⟩ := List.exists_cons_of_ne_nil some
  rw [pairedIff some]
  simp only [groupError?, Option.orElse_eq_none, untaggedClashNone, clashNone, pairingNone, Clashes]
  omega

theorem counterpartIff {v : Variant} : (counterpart? (groups decls) p.name p.key v).isSome = true ↔
    HasCounterpart decls p v := by
  rw [counterpart?, List.findSome?_isSome_iff]
  constructor
  · rintro ⟨g, member, found⟩
    obtain ⟨d, declared, rfl⟩ := memGroups.mp member
    obtain ⟨head, rest, is, same⟩ := familyHead declared
    rw [is] at found
    simp only at found
    split at found
    · rename_i other
      obtain ⟨name, key, one, none⟩ := other
      rw [ne_eq, Prototype.keyMatches] at key
      refine ⟨d, declared, (Prototype.matchesIff.mp same).1.trans name, fun own => ?_, ?_, ?_⟩
      · exact key (own.trans same).symm
      · rwa [is]
      · rwa [is]
    · cases found
  · rintro ⟨d, declared, name, other, one, none⟩
    obtain ⟨head, rest, is, same⟩ := familyHead declared
    refine ⟨family decls d.prototype, memGroups.mpr ⟨d, declared, rfl⟩, ?_⟩
    have key : head.prototype.key ≠ p.key := fun equal =>
      other ((Prototype.keyMatches.mp equal).symm.trans same.symm)
    rw [is] at one none ⊢
    simp only [(Prototype.matchesIff.mp same).1.symm.trans name, key, one, none, ne_eq,
      not_false_eq_true, and_self, if_true]
    obtain ⟨c, only⟩ := List.length_eq_one_iff.mp one
    rw [only]
    rfl

theorem loneRefused (decls : List Implementation) {v : Variant} (same : p.Matches d.prototype) :
    (lone (groups decls) v d).builtin = p.name ∧
      (lone (groups decls) v d).kind =
        if HasCounterpart decls p v.other then .signatureMismatch else .missingVariant := by
  have name := (Prototype.matchesIff.mp same).1
  have known : (counterpart? (groups decls) d.prototype.name d.prototype.key v.other).isSome = true ↔
      HasCounterpart decls p v.other := by
    rw [← name, ← Prototype.keyMatches.mpr same]
    exact counterpartIff
  simp only [lone]
  cases found : counterpart? (groups decls) d.prototype.name d.prototype.key v.other with
  | none =>
    rw [found] at known
    rw [if_neg fun has => nomatch known.mpr has]
    exact ⟨name.symm, rfl⟩
  | some c =>
    rw [found] at known
    rw [if_pos (known.mp rfl)]
    cases v <;> exact ⟨name.symm, rfl⟩

theorem unservedOther {v : Variant} (alone : (tagged g v).length = 1)
    (other : (tagged g v.other).length = 0) : unserved g = v.other := by
  simp only [unserved, List.isEmpty_iff_length_eq_zero]
  cases v with
  | float => exact if_neg (by omega)
  | fixedPoint => exact if_pos other

theorem familyError (member : d ∈ decls)
    (failed : groupError? (groups decls) (family decls d.prototype) = some e) :
    e.builtin = d.prototype.name ∧ e.kind = refusal decls d.prototype := by
  obtain ⟨head, rest, is, same⟩ := familyHead member
  have serves {v : Variant} {c : Implementation} (only : tagged (family decls d.prototype) v = [c]) :
      d.prototype.Matches c.prototype := by
    have among : c ∈ tagged (family decls d.prototype) v := only ▸ List.mem_cons_self
    exact (memFamily.mp (List.mem_filter.mp among).1).2
  rw [is] at failed
  simp only [groupError?, Option.orElse_eq_some, clashNone, untaggedClashNone] at failed
  rw [← is, ← (Prototype.matchesIff.mp same).1] at failed
  have clashing (clash : Clashes (family decls d.prototype)) :
      refusal decls d.prototype = .duplicateVariant := if_pos clash
  rcases failed with clash | ⟨alone, clash | ⟨oneFloat, clash | ⟨oneFixed, lone⟩⟩⟩
  · obtain ⟨builtin, kind, beside⟩ := untaggedClashSome clash
    exact ⟨builtin, kind.trans (clashing (.inr (.inr beside))).symm⟩
  · obtain ⟨builtin, kind, twice⟩ := clashSome clash
    exact ⟨builtin, kind.trans (clashing (.inl twice)).symm⟩
  · obtain ⟨builtin, kind, twice⟩ := clashSome clash
    exact ⟨builtin, kind.trans (clashing (.inr (.inl twice))).symm⟩
  · have apart : ¬ Clashes (family decls d.prototype) := by
      unfold Clashes
      omega
    unfold pairing? at lone
    split at lone
    · cases lone
    · rename_i c float fixed
      cases lone
      obtain ⟨builtin, kind⟩ := loneRefused decls (v := .float) (serves float)
      have lacks : unserved (family decls d.prototype) = .fixedPoint :=
        unservedOther (by rw [float]; rfl) (by rw [Variant.other, fixed]; rfl)
      rw [refusal, if_neg apart, lacks]
      exact ⟨builtin, kind⟩
    · rename_i c float fixed
      cases lone
      obtain ⟨builtin, kind⟩ := loneRefused decls (v := .fixedPoint) (serves fixed)
      have lacks : unserved (family decls d.prototype) = .float :=
        unservedOther (by rw [fixed]; rfl) (by rw [Variant.other, float]; rfl)
      rw [refusal, if_neg apart, lacks]
      exact ⟨builtin, kind⟩
    · cases lone

end Refusals

theorem createFails : create decls = .error e ↔
    decls.findSome? (fun d => groupError? (groups decls) (family decls d.prototype)) = some e := by
  have alike (p q : Prototype) (same : p.Matches q) : groupError? (groups decls) (family decls p) =
      groupError? (groups decls) (family decls q) := congrArg _ (familyCongr same)
  rw [← findOpened alike]
  have looked : (groups decls).findSome? (groupError? (groups decls)) =
      (openings decls).findSome? fun h => groupError? (groups decls) (family decls h.prototype) := by
    conv_lhs => arg 2; rw [groupsFamilies]
    rw [List.findSome?_map]
    rfl
  rw [← looked, create]
  cases (groups decls).findSome? (groupError? (groups decls)) <;> simp

theorem createSucceeds :
    (∃ r, create decls = .ok r) ↔ ∀ d ∈ decls, WellPaired (family decls d.prototype) := by
  have filled (d : Implementation) (member : d ∈ decls) : family decls d.prototype ≠ [] := by
    obtain ⟨head, rest, is, -⟩ := familyHead member
    rw [is]
    exact List.cons_ne_nil head rest
  have sound : (∃ r, create decls = .ok r) ↔ ∀ e, create decls ≠ .error e := by
    cases create decls <;> simp
  simp only [sound, ne_eq, createFails]
  rw [← Option.eq_none_iff_forall_ne_some, List.findSome?_eq_none_iff]
  exact forall₂_congr fun d member => errorNone _ (filled d member)

theorem pairedReordered {decls' : List Implementation} (perm : decls.Perm decls') :
    WellPaired (family decls p) ↔ WellPaired (family decls' p) := by
  have same : (family decls p).Perm (family decls' p) := perm.filter _
  have tags (v : Variant) := (same.filter fun d => decide (d.variant = some v)).length_eq
  have none := (same.filter fun d => d.variant.isNone).length_eq
  simp only [WellPaired, untagged, tagged, same.length_eq, tags, none]

/-- A registry is made if every builtin is well paired, in whatever order it is declared. The
first declaration of another one names the builtin of the error. -/
theorem registryMadeExactly (decls : List Implementation) :
    ((∃ r, create decls = .ok r) ↔ ∀ d ∈ decls, WellPaired (family decls d.prototype)) ∧
    (∀ decls', decls.Perm decls' → ((∃ r, create decls' = .ok r) ↔ ∃ r, create decls = .ok r)) ∧
    ∀ e, create decls = .error e → ∃ before d after, decls = before ++ d :: after ∧
      (∀ b ∈ before, WellPaired (family decls b.prototype)) ∧
      ¬ WellPaired (family decls d.prototype) ∧
      e.builtin = d.prototype.name ∧ e.kind = refusal decls d.prototype := by
  refine ⟨createSucceeds, fun decls' perm => ?_, fun e failed => ?_⟩
  · rw [createSucceeds, createSucceeds]
    constructor
    · exact fun paired d member => (pairedReordered perm).mpr (paired d (perm.mem_iff.mp member))
    · exact fun paired d member => (pairedReordered perm).mp (paired d (perm.mem_iff.mpr member))
  · obtain ⟨before, d, after, split, here, none⟩ :=
      List.findSome?_eq_some_iff.mp (createFails.mp failed)
    have declared (b : Implementation) (member : b ∈ before ++ d :: after) :
        family decls b.prototype ≠ [] := by
      obtain ⟨head, rest, is, -⟩ := familyHead (split ▸ member)
      rw [is]
      exact List.cons_ne_nil head rest
    have member : d ∈ before ++ d :: after := List.mem_append_right _ List.mem_cons_self
    refine ⟨before, d, after, split, fun b old => ?_, fun paired => ?_,
      familyError (split ▸ member) here⟩
    · exact (errorNone _ (declared b (List.mem_append_left _ old))).mp (none b old)
    · rw [(errorNone _ (declared d member)).mpr paired] at here
      cases here

def scaleOf (t : ShaderTy) (v : Option Variant) : Implementation :=
  ⟨⟨"scale", t, [⟨"x", t, .input⟩]⟩, v, "scale_" ++ t.name, "", none⟩

def mismatched : List Implementation :=
  [scaleOf .vec4 none, scaleOf .vec2 (some .float), scaleOf .vec3 (some .fixedPoint)]

theorem catalogMakesRegistry :
    (∃ decls r, catalog = .ok decls ∧ (∀ d ∈ decls, WellPaired (family decls d.prototype)) ∧
      create decls = .ok r) ∧
    (∀ decls, mismatched.Perm decls → ¬ ∃ r, create decls = .ok r) ∧
    ∃ e, create mismatched = .error e ∧ e.builtin = "scale" ∧ e.kind = .signatureMismatch := by
  refine ⟨?_, ?_⟩
  · have checked : catalog.toOption.any (fun decls =>
        ∀ d ∈ decls, WellPaired (family decls d.prototype)) = true := by decide +kernel
    obtain ⟨decls, read, paired⟩ := (Option.any_eq_true _ _).mp checked
    obtain ⟨r, made⟩ := (registryMadeExactly decls).1.mpr (of_decide_eq_true paired)
    exact ⟨decls, r, okOfOption read, of_decide_eq_true paired, made⟩
  · obtain ⟨exact, reordered, refused⟩ := registryMadeExactly mismatched
    have first : WellPaired (family mismatched (scaleOf .vec4 none).prototype) := by decide +kernel
    have second : ¬ WellPaired (family mismatched (scaleOf .vec2 (some .float)).prototype) := by
      decide +kernel
    have kind : refusal mismatched (scaleOf .vec2 (some .float)).prototype =
        .signatureMismatch := by decide +kernel
    have none : ¬ ∃ r, create mismatched = .ok r := fun made =>
      second (exact.mp made _ (List.mem_cons_of_mem _ List.mem_cons_self))
    refine ⟨fun decls perm made => none ((reordered decls perm).mp made), ?_⟩
    cases failed : create mismatched with
    | ok r => exact absurd ⟨r, failed⟩ none
    | error e =>
      obtain ⟨before, d, after, split, paired, unpaired, name, why⟩ := refused e failed
      -- The first declaration is well paired and the second is not, so that it is the second.
      rcases before with _ | ⟨b, _ | ⟨b', more⟩⟩
      · cases split
        exact absurd first unpaired
      · cases split
        exact ⟨e, rfl, name, why.trans kind⟩
      · obtain ⟨rfl, -⟩ := List.cons.inj (List.cons.inj split).2
        exact absurd (paired _ (List.mem_cons_of_mem _ List.mem_cons_self)) second

example : refusal [scaleOf .vec2 (some .float), scaleOf .vec3 none] (scaleOf .vec2 none).prototype =
      .missingVariant ∧
    refusal [scaleOf .vec2 (some .float), scaleOf .vec2 none] (scaleOf .vec2 none).prototype =
      .duplicateVariant := by decide +kernel

end FixedIL.Builtin.Registry
