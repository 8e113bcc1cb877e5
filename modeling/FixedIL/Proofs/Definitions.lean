import FixedIL.Machine.State
import FixedIL.WellFormed

/-!
Temporaries that a function defines once: the type and the register of each. In a well-formed
program every function defines its temporaries once, and operands are defined.
-/
namespace FixedIL

def Function.code (f : Function) : List Instr := f.blocks.flatMap Block.instrs

def Program.code (p : Program) : List Instr := p.functions.flatMap Function.code

def callsOf (code : List Instr) : List Instr := code.filter fun i => i.op = .call

theorem Program.namedFirst {p : Program} {f : Function} (member : f ∈ p.functions) :
    ∃ g ∈ p.functions, g.name = f.name ∧ p.functionNamed? f.name = some g := by
  obtain ⟨g, found⟩ : ∃ g, p.functions.find? (fun g => g.name = f.name) = some g :=
    Option.isSome_iff_exists.mp (List.find?_isSome.mpr ⟨f, member, decide_eq_true rfl⟩)
  exact ⟨g, List.mem_of_find?_eq_some found, by simpa using List.find?_some found, found⟩

namespace Function

def DefinesOnce (f : Function) : Prop := (f.temps.map Temp.id).Nodup

theorem filterOnce {ts : List Temp} (once : (ts.map Temp.id).Nodup) {t : Temp} (member : t ∈ ts) :
    ts.filter (fun u => u.id = t.id) = [t] := by
  induction ts with
  | nil => cases member
  | cons u rest ih =>
    obtain ⟨new, once⟩ := List.nodup_cons.mp once
    rcases List.mem_cons.mp member with rfl | member
    · have none : rest.filter (fun u => u.id = t.id) = [] := by
        refine List.filter_eq_nil_iff.mpr fun u hu same => new ?_
        exact List.mem_map.mpr ⟨u, hu, of_decide_eq_true same⟩
      simp [none]
    · have other : u.id ≠ t.id := fun same => new (same ▸ List.mem_map_of_mem member)
      simp [other, ih once member]

theorem tempTypeOnce {f : Function} (once : f.DefinesOnce) {t : Temp} (member : t ∈ f.temps) :
    Frame.tempType f t.id = t.type := by
  simp [Frame.tempType, filterOnce once member]

theorem memTemps {f : Function} {b : Block} {i : Instr} {t : Temp} (block : b ∈ f.blocks)
    (instr : i ∈ b.instrs) (result : t ∈ i.results) : t ∈ f.temps :=
  List.mem_flatMap.mpr ⟨b, block,
    List.mem_append_right _ (List.mem_flatMap.mpr ⟨i, instr, result⟩)⟩

theorem memParams {f : Function} {b : Block} {t : Temp} (block : b ∈ f.blocks)
    (param : t ∈ b.params) : t ∈ f.temps :=
  List.mem_flatMap.mpr ⟨b, block, List.mem_append_left _ param⟩

theorem maxCounts {a b : UInt32} {m n : Nat} (left : a.toNat = m) (right : b.toNat = n) :
    (max a b).toNat = max m n := by
  have either : max a b = if a ≤ b then b else a := rfl
  rw [either, ← left, ← right]
  split
  · rename_i le
    exact (Nat.max_eq_right (UInt32.le_iff_toNat_le.mp le)).symm
  · rename_i gt
    exact (Nat.max_eq_left (Nat.le_of_not_le fun le => gt (UInt32.le_iff_toNat_le.mpr le))).symm

theorem maxBounds (a b : UInt32) :
    a.toNat ≤ (max a b).toNat ∧ b.toNat ≤ (max a b).toNat := by
  rw [maxCounts rfl rfl]
  exact ⟨Nat.le_max_left .., Nat.le_max_right ..⟩

theorem startBelowMax (ts : List Temp) (start : TempId) :
    start.toNat ≤ (ts.foldl (fun next t => max next (t.id + 1)) start).toNat := by
  induction ts generalizing start with
  | nil => exact Nat.le_refl _
  | cons t rest ih =>
    exact Nat.le_trans (maxBounds start (t.id + 1)).1 (ih _)

theorem tempBelowMax {ts : List Temp} {t : Temp} (member : t ∈ ts) (start : TempId) :
    (t.id + 1).toNat ≤ (ts.foldl (fun next t => max next (t.id + 1)) start).toNat := by
  induction ts generalizing start with
  | nil => cases member
  | cons u rest ih =>
    rcases List.mem_cons.mp member with rfl | member
    · exact Nat.le_trans (maxBounds start (t.id + 1)).2 (startBelowMax rest _)
    · exact ih member _

theorem tempBelowNext {f : Function} {t : Temp} (member : t ∈ f.temps)
    (room : t.id.toNat + 1 < UInt32.size) : t.id.toNat < f.nextTemp.toNat := by
  have next : (t.id + 1).toNat = t.id.toNat + 1 := by
    rw [UInt32.toNat_add]
    exact Nat.mod_eq_of_lt room
  have below : (t.id + 1).toNat ≤ f.nextTemp.toNat := tempBelowMax member _
  omega

end Function

namespace WellFormed

theorem orElseNone {α : Type} {a b : Option α} : (a <|> b) = none ↔ a = none ∧ b = none := by
  cases a <;> simp

theorem redefinedNone {seen : List TempId} {ts : List Temp} (none : redefined? seen ts = none) :
    (ts.map Temp.id).Nodup ∧ ∀ t ∈ ts, t.id ∉ seen := by
  induction ts generalizing seen with
  | nil => exact ⟨List.nodup_nil, fun t ht => by cases ht⟩
  | cons t rest ih =>
    rw [redefined?] at none
    split at none
    · cases none
    · rename_i unseen
      obtain ⟨once, others⟩ := ih none
      refine ⟨List.nodup_cons.mpr ⟨fun again => ?_, once⟩, fun u member => ?_⟩
      · obtain ⟨u, hu, same⟩ := List.mem_map.mp again
        exact others u hu (same ▸ List.mem_cons_self)
      · rcases List.mem_cons.mp member with rfl | member
        · simpa using unseen
        · exact fun old => others u member (List.mem_cons_of_mem _ old)

theorem nodupAppend {ids ids' seen : List TempId} (once : ids.Nodup) (once' : ids'.Nodup)
    (new : ∀ id ∈ ids, id ∉ seen) (new' : ∀ id ∈ ids', id ∉ ids ++ seen) :
    (ids ++ ids').Nodup ∧ ∀ id ∈ ids ++ ids', id ∉ seen := by
  refine ⟨List.nodup_append.mpr ⟨once, once', ?_⟩, fun id member => ?_⟩
  · rintro id member _ member' rfl
    exact new' id member' (List.mem_append_left _ member)
  · rcases List.mem_append.mp member with old | late
    · exact new id old
    · exact fun before => new' id late (List.mem_append_right _ before)

theorem instrsRedefineNone {seen : List TempId} {is : List Instr}
    (none : instrsRedefine? seen is = none) :
    ((is.flatMap Instr.results).map Temp.id).Nodup ∧
      ∀ id ∈ (is.flatMap Instr.results).map Temp.id, id ∉ seen := by
  induction is generalizing seen with
  | nil => exact ⟨List.nodup_nil, fun id hid => by cases hid⟩
  | cons i rest ih =>
    rw [instrsRedefine?] at none
    split at none
    · cases none
    · rename_i own
      obtain ⟨once, new⟩ := redefinedNone own
      obtain ⟨once', new'⟩ := ih none
      rw [List.flatMap_cons, List.map_append]
      refine nodupAppend once once' (fun id member => ?_) new'
      obtain ⟨t, ht, rfl⟩ := List.mem_map.mp member
      exact new t ht

theorem definitionsNone {name : String} {labels : List String} {seen : List TempId}
    {bs : List Block} (none : definitions? name labels seen bs = none) :
    ((bs.flatMap Block.temps).map Temp.id).Nodup ∧
      ∀ id ∈ (bs.flatMap Block.temps).map Temp.id, id ∉ seen := by
  induction bs generalizing labels seen with
  | nil => exact ⟨List.nodup_nil, fun id hid => by cases hid⟩
  | cons b rest ih =>
    rw [definitions?] at none
    split at none
    · cases none
    · split at none
      · cases none
      · rename_i params
        simp only at none
        split at none
        · cases none
        · rename_i instrs
          obtain ⟨once, new⟩ := redefinedNone params
          obtain ⟨once', new'⟩ := instrsRedefineNone instrs
          obtain ⟨once'', new''⟩ := ih none
          have inside := nodupAppend once' once'' new' new''
          rw [List.flatMap_cons, Block.temps, List.map_append, List.map_append, List.append_assoc]
          refine nodupAppend once inside.1 (fun id member => ?_) inside.2
          obtain ⟨t, ht, rfl⟩ := List.mem_map.mp member
          exact new t ht

variable {p : Program} {f : Function} {b : Block} {i : Instr}

theorem noViolation (wellFormed : p.WellFormed) (member : f ∈ p.functions) :
    f.violation? p = none := by
  obtain ⟨-, functions⟩ := orElseNone.mp wellFormed
  exact List.findSome?_eq_none_iff.mp (Option.map_eq_none_iff.mp functions) f member

theorem definesOnce (sound : f.violation? p = none) : f.DefinesOnce := by
  obtain ⟨-, rest⟩ := orElseNone.mp sound
  exact (definitionsNone (orElseNone.mp rest).1).1

theorem instrSound (sound : f.violation? p = none) (block : b ∈ f.blocks) (instr : i ∈ b.instrs) :
    instr? p f f.temps i = none := by
  obtain ⟨-, rest⟩ := orElseNone.mp sound
  have blockSound := List.findSome?_eq_none_iff.mp (orElseNone.mp rest).2 b block
  have all (label : String) (is : List Instr) (none : instrs? p f f.temps label is = none) :
      ∀ i ∈ is, instr? p f f.temps i = .none := by
    induction is with
    | nil => exact fun i hi => by cases hi
    | cons j rest ih =>
      obtain ⟨head, tail⟩ := orElseNone.mp none
      intro i member
      rcases List.mem_cons.mp member with rfl | member
      · exact (orElseNone.mp (Option.map_eq_none_iff.mp head)).2
      · exact ih tail i member
  exact all b.label b.instrs (orElseNone.mp blockSound).2 i instr

theorem undefinedNone {types : List Temp} {vs : List Value} (none : undefined? types vs = none)
    {id : TempId} (member : .temp id ∈ vs) : ∃ t ∈ types, t.id = id := by
  have each := List.findSome?_eq_none_iff.mp none _ member
  simpa using requireNone.mp each

theorem operandCount (sound : instr? p f f.temps i = none)
    (fixed : i.op.maxOperands? = some i.op.minOperands) : i.operands.length = i.op.minOperands := by
  have count := requireNone.mp (orElseNone.mp sound).1
  rw [Opcode.acceptsOperands, fixed, Option.all_some, Bool.and_eq_true, decide_eq_true_eq,
    decide_eq_true_eq] at count
  omega

theorem oneResult (sound : instr? p f f.temps i = none) (one : i.op.results = .one) :
    ∃ r, i.results = [r] ∧ r.type = i.type := by
  have results := (orElseNone.mp (orElseNone.mp sound).2).1
  rw [results?, one] at results
  split at results
  · rename_i r _ isResult
    exact ⟨r, isResult, of_decide_eq_true (requireNone.mp results)⟩
  · cases results
  · rename_i other
    cases other
  · rename_i other
    cases other

theorem noResult (sound : instr? p f f.temps i = none) (none : i.op.results = .none) :
    i.results = [] := by
  have results := (orElseNone.mp (orElseNone.mp sound).2).1
  rw [results?, none] at results
  exact List.isEmpty_iff.mp (requireNone.mp results)

theorem operandDefined (sound : f.violation? p = none) (block : b ∈ f.blocks)
    (instr : i ∈ b.instrs) {id : TempId} (member : .temp id ∈ i.operands) :
    ∃ t ∈ f.temps, t.id = id := by
  have checks := instrSound sound block instr
  simp only [instr?, orElseNone] at checks
  exact undefinedNone checks.2.2.1 member

end WellFormed
end FixedIL
