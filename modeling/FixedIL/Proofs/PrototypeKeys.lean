import FixedIL.Builtin.Prototype
import Mathlib.Data.List.Forall2
import Mathlib.Data.List.Induction

/-!
The key of a prototype tells it from every other one up to the names of its parameters. A name
may hold any text, so a key is read from its end: neither the last part of a key nor the words in
it contain the bar that stands before them, and only parameters contain a blank.
-/
namespace FixedIL.Builtin

theorem cutOnce {α : Type} {sep : α} {front front' back back' : List α} (last : sep ∉ back)
    (last' : sep ∉ back') (same : front ++ sep :: back = front' ++ sep :: back') :
    front = front' ∧ back = back' := by
  rcases List.append_eq_append_iff.mp same with ⟨more, isFront, isBack⟩ | ⟨more, isFront, isBack⟩
  · cases more with
    | nil => exact ⟨by simpa using isFront.symm, by simpa using isBack⟩
    | cons c more =>
      obtain ⟨rfl, rfl⟩ := List.cons.inj isBack
      exact absurd (List.mem_append_right _ List.mem_cons_self) last
  · cases more with
    | nil => exact ⟨by simpa using isFront, by simpa using isBack.symm⟩
    | cons c more =>
      obtain ⟨rfl, rfl⟩ := List.cons.inj isBack
      exact absurd (List.mem_append_right _ List.mem_cons_self) last'

theorem ShaderTy.nameLetters (t : ShaderTy) : '|' ∉ t.name.toList ∧ ' ' ∉ t.name.toList := by
  cases t <;> decide

theorem ShaderTy.nameInjective {t u : ShaderTy} (same : t.name = u.name) : t = u := by
  cases t <;> cases u <;> first | rfl | exact absurd same (by decide)

theorem Direction.nameLetters (d : Direction) : '|' ∉ d.name.toList := by
  cases d <;> decide

theorem Direction.nameInjective {d e : Direction} (same : d.name = e.name) : d = e := by
  cases d <;> cases e <;> first | rfl | exact absurd same (by decide)

namespace Param

variable {p q : Param}

theorem keyTextChars (p : Param) :
    p.keyText.toList = p.direction.name.toList ++ ' ' :: p.type.name.toList := by
  simp [keyText]

theorem keyTextBar (p : Param) : '|' ∉ p.keyText.toList := by
  rw [keyTextChars]
  simp [p.direction.nameLetters, p.type.nameLetters.1]

theorem keyTextShape (same : p.keyText = q.keyText) : p.shape = q.shape := by
  have chars := congrArg String.toList same
  rw [keyTextChars, keyTextChars] at chars
  obtain ⟨direction, type⟩ := cutOnce p.type.nameLetters.2 q.type.nameLetters.2 chars
  rw [shape, shape, ShaderTy.nameInjective (String.toList_inj.mp type),
    Direction.nameInjective (String.toList_inj.mp direction)]

end Param

namespace Prototype

def Matches (p q : Prototype) : Prop := p.name = q.name ∧ p.sameShape q = true

instance (p q : Prototype) : Decidable (p.Matches q) := by unfold Matches; infer_instance

variable {p q : Prototype}

theorem matchesIff : p.Matches q ↔
    p.name = q.name ∧ p.returns = q.returns ∧ p.params.map Param.shape = q.params.map Param.shape := by
  simp [Matches, sameShape]

theorem matchesRefl (p : Prototype) : p.Matches p := matchesIff.mpr ⟨rfl, rfl, rfl⟩

theorem Matches.symm (same : p.Matches q) : q.Matches p := by
  rw [matchesIff] at same ⊢
  exact ⟨same.1.symm, same.2.1.symm, same.2.2.symm⟩

theorem Matches.trans {r : Prototype} (first : p.Matches q) (second : q.Matches r) :
    p.Matches r := by
  rw [matchesIff] at first second ⊢
  exact ⟨first.1.trans second.1, first.2.1.trans second.2.1, first.2.2.trans second.2.2⟩

def keyRest (ps : List Param) : List Char := ps.flatMap fun q => '|' :: q.keyText.toList

theorem keyChars (p : Prototype) :
    p.key.toList = p.name.toList ++ '|' :: p.returns.name.toList ++ keyRest p.params := by
  have joined (ps : List Param) :
      (String.join (ps.map fun q => "|" ++ q.keyText)).toList = keyRest ps := by
    induction ps with
    | nil => rfl
    | cons q rest ih =>
      rw [List.map_cons, String.join_cons, String.toList_append, ih]
      simp [keyRest]
  simp [key, joined]

theorem restCut {head head' ret ret' : List Char} {ps ps' : List Param}
    (plain : '|' ∉ ret ∧ ' ' ∉ ret) (plain' : '|' ∉ ret' ∧ ' ' ∉ ret')
    (same : head ++ '|' :: ret ++ keyRest ps = head' ++ '|' :: ret' ++ keyRest ps') :
    head = head' ∧ ret = ret' ∧ ps.map Param.shape = ps'.map Param.shape := by
  have snoc (front : List Char) (ps : List Param) (q : Param) :
      front ++ keyRest (ps ++ [q]) = (front ++ keyRest ps) ++ '|' :: q.keyText.toList := by
    simp [keyRest]
  have bare (front : List Char) : front ++ keyRest [] = front := List.append_nil front
  have blank (q : Param) : ' ' ∈ q.keyText.toList := by
    rw [Param.keyTextChars]
    exact List.mem_append_right _ List.mem_cons_self
  /- From the last parameter to the first: a return type and a parameter hold no bar, so the last
  bar stands before the last of them. A parameter has a blank in it and a return type has none. -/
  induction ps using List.reverseRecOn generalizing ps' with
  | nil =>
    rw [bare] at same
    cases ps' using List.reverseRecOn with
    | nil =>
      rw [bare] at same
      obtain ⟨names, returns⟩ := cutOnce plain.1 plain'.1 same
      exact ⟨names, returns, rfl⟩
    | append_singleton rest q =>
      rw [snoc] at same
      obtain ⟨-, returns⟩ := cutOnce plain.1 q.keyTextBar same
      exact absurd (returns ▸ blank q) plain.2
  | append_singleton rest q ih =>
    rw [snoc] at same
    cases ps' using List.reverseRecOn with
    | nil =>
      rw [bare] at same
      obtain ⟨-, returns⟩ := cutOnce q.keyTextBar plain'.1 same
      exact absurd (returns ▸ blank q) plain'.2
    | append_singleton rest' q' =>
      rw [snoc] at same
      obtain ⟨front, text⟩ := cutOnce q.keyTextBar q'.keyTextBar same
      obtain ⟨names, returns, shapes⟩ := ih front
      have shape := Param.keyTextShape (String.toList_inj.mp text)
      exact ⟨names, returns, by simp [shapes, shape]⟩

theorem keyMatches : p.key = q.key ↔ p.Matches q := by
  rw [matchesIff]
  constructor
  · intro same
    have chars := congrArg String.toList same
    rw [keyChars, keyChars] at chars
    obtain ⟨names, returns, shapes⟩ := restCut p.returns.nameLetters q.returns.nameLetters chars
    exact ⟨String.toList_inj.mp names, ShaderTy.nameInjective (String.toList_inj.mp returns), shapes⟩
  · rintro ⟨names, returns, shapes⟩
    have texts := congrArg (List.map fun s : ShaderTy × Direction =>
      "|" ++ (s.2.name ++ " " ++ s.1.name)) shapes
    rw [List.map_map, List.map_map] at texts
    have same : p.params.map (fun q => "|" ++ q.keyText) = q.params.map (fun q => "|" ++ q.keyText) :=
      texts
    rw [key, key, names, returns, same]

theorem sameShapeIff : p.sameShape q = true ↔ p.returns = q.returns ∧
    List.Forall₂ (fun a b => a.type = b.type ∧ a.direction = b.direction) p.params q.params := by
  have shapes : p.params.map Param.shape = q.params.map Param.shape ↔
      List.Forall₂ (fun a b => a.type = b.type ∧ a.direction = b.direction) p.params q.params := by
    rw [← List.forall₂_eq_eq_eq, List.forall₂_map_left_iff, List.forall₂_map_right_iff]
    simp only [Param.shape, Prod.mk.injEq]
  rw [← shapes]
  simp [sameShape]

/-- A key says the name and the shape of a prototype and nothing else: the shape is the return type
and, for as many parameters in order, their types and directions. -/
theorem keyFaithful (p q : Prototype) :
    (p.key = q.key ↔ p.name = q.name ∧ p.sameShape q = true) ∧
    (p.sameShape q = true ↔ p.returns = q.returns ∧
      List.Forall₂ (fun a b => a.type = b.type ∧ a.direction = b.direction) p.params q.params) :=
  ⟨keyMatches, sameShapeIff⟩

example : (Prototype.mk "f|int" .float [⟨"", .float, .input⟩]).key ≠
    (Prototype.mk "f" .int [⟨"", .float, .input⟩, ⟨"", .float, .input⟩]).key := by decide +kernel

end Prototype
end FixedIL.Builtin
