import FixedIL.Builtin.Registry

/-!
Checking a call against looking it up. The lookup stops at the first builtin of the name that takes
the types of the arguments. The check of a call that finds none goes through the builtins again: it
stops at the first of the name that takes as many arguments, and falls back on the first of the
name. The report says which of these the call was held against.
-/
namespace FixedIL.Builtin.Registry

def IsFirst {α : Type} (P : α → Prop) (xs : List α) (x : α) : Prop :=
  P x ∧ ∃ before after, xs = before ++ x :: after ∧ ∀ y ∈ before, ¬ P y

def Named (name : String) (d : Descriptor) : Prop := d.prototype.name = name

def Overload (name : String) (arity : Nat) (d : Descriptor) : Prop :=
  d.prototype.name = name ∧ d.prototype.params.length = arity

instance (name : String) : DecidablePred (Named name) := fun d => by unfold Named; infer_instance

instance (name : String) (arity : Nat) : DecidablePred (Overload name arity) :=
  fun d => by unfold Overload; infer_instance

inductive FirstMismatch : List Param → List ShaderTy → Param → ShaderTy → Prop where
  | here {p : Param} {a : ShaderTy} {ps : List Param} {as : List ShaderTy} (other : p.type ≠ a) :
      FirstMismatch (p :: ps) (a :: as) p a
  | later {p q : Param} {a : ShaderTy} {ps : List Param} {as : List ShaderTy}
      (tail : FirstMismatch ps as p a) : FirstMismatch (q :: ps) (q.type :: as) p a

inductive Refuses (r : Registry) (name : String) (args : List ShaderTy) : CallError → Prop where
  | unknown (foreign : ∀ d ∈ r.descriptors, ¬ Named name d) :
      Refuses r name args (.unknownFunction name)
  | arity {d : Descriptor} (first : IsFirst (Named name) r.descriptors d)
      (lacks : ∀ d ∈ r.descriptors, ¬ Overload name args.length d) :
      Refuses r name args (.arity name d.prototype.params.length args.length)
  | argument {d : Descriptor} {p : Param} {a : ShaderTy} (missed : r.find? name args = none)
      (first : IsFirst (Overload name args.length) r.descriptors d)
      (mismatch : FirstMismatch d.prototype.params args p a) :
      Refuses r name args (.argType name p a)

section Scans

variable {α : Type} {P : α → Prop} {xs : List α} {x : α} {r : Registry} {ds : List Descriptor}
  {name : String} {arity : Nat}

theorem IsFirst.mem (first : IsFirst P xs x) : x ∈ xs := by
  obtain ⟨-, before, after, split, -⟩ := first
  exact split ▸ List.mem_append_right before List.mem_cons_self

theorem findFirst [DecidablePred P] : xs.find? (fun y => P y) = some x ↔ IsFirst P xs x := by
  simp [List.find?_eq_some_iff_append, IsFirst]

theorem overloadNone :
    ds.find? (fun d => Overload name arity d) = none ↔ ∀ d ∈ ds, ¬ Overload name arity d := by
  simp

theorem candidateAmong (name : String) (arity : Nat) (kept : Option Descriptor)
    (ds : List Descriptor) : candidateAmong? name arity kept ds =
      (ds.find? (fun d => Overload name arity d) <|> kept <|> ds.find? (fun d => Named name d)) := by
  induction ds generalizing kept with
  | nil => cases kept <;> rfl
  | cons d rest ih =>
    have overload : Overload name arity d ↔
        d.prototype.name = name ∧ d.prototype.params.length = arity := Iff.rfl
    have named : Named name d ↔ d.prototype.name = name := Iff.rfl
    rw [candidateAmong?]
    split
    · rename_i foreign
      simp [ih, overload, named, foreign]
    · rename_i own
      rw [ne_eq, Decidable.not_not] at own
      split
      · rename_i count
        simp [overload, own, count]
      · -- Kept or not, the builtin is the first of the name unless one has been kept before.
        rename_i count
        simp only [ih, List.find?_cons, overload, named, own, count]
        cases rest.find? (fun d => Overload name arity d) <;> cases kept <;> rfl

theorem candidateIs (r : Registry) (name : String) (arity : Nat) : r.candidate? name arity =
    (r.descriptors.find? (fun d => Overload name arity d) <|>
      r.descriptors.find? (fun d => Named name d)) := by
  rw [candidate?, candidateAmong]
  cases r.descriptors.find? (fun d => Overload name arity d) <;> rfl

end Scans

section Arguments

variable {params : List Param} {args : List ShaderTy} {p : Param} {a : ShaderTy}

theorem matchesOr (count : params.length = args.length) :
    params.map Param.type = args ∨ ∃ p a, FirstMismatch params args p a := by
  induction params generalizing args with
  | nil => exact .inl (List.eq_nil_of_length_eq_zero count.symm).symm
  | cons q ps ih =>
    cases args with
    | nil => cases count
    | cons b as =>
      by_cases same : q.type = b
      · subst same
        rcases ih (Nat.succ.inj count) with whole | ⟨p, a, tail⟩
        · exact .inl (by rw [List.map_cons, whole])
        · exact .inr ⟨p, a, .later tail⟩
      · exact .inr ⟨q, b, .here same⟩

theorem mismatchFound (mismatch : FirstMismatch params args p a) :
    (params.zip args).find? (fun (p, a) => p.type ≠ a) = some (p, a) := by
  induction mismatch with
  | here other => rw [List.zip_cons_cons, List.find?_cons_of_pos (by simpa using other)]
  | later tail ih => rw [List.zip_cons_cons, List.find?_cons_of_neg (by simp), ih]

end Arguments

section Calls

variable {r : Registry} {name : String} {args : List ShaderTy} {d : Descriptor} {e : CallError}

theorem foundOverload (found : r.find? name args = some d) :
    d ∈ r.descriptors ∧ Overload name args.length d := by
  have own := List.find?_some found
  rw [Bool.and_eq_true, decide_eq_true_eq, decide_eq_true_eq] at own
  refine ⟨List.mem_of_find?_eq_some found, own.1, ?_⟩
  rw [← own.2, Prototype.paramTypes, List.length_map]

theorem missesWithout (lacks : ∀ d ∈ r.descriptors, ¬ Overload name args.length d) :
    r.find? name args = none := by
  cases found : r.find? name args with
  | none => rfl
  | some d => exact absurd (foundOverload found).2 (lacks d (foundOverload found).1)

theorem firstMisses (missed : r.find? name args = none)
    (first : IsFirst (Overload name args.length) r.descriptors d) :
    ∃ p a, FirstMismatch d.prototype.params args p a := by
  have fails := List.find?_eq_none.mp missed d first.mem
  obtain ⟨⟨named, count⟩, -⟩ := first
  refine (matchesOr count).resolve_left fun whole => fails ?_
  simp [named, Prototype.paramTypes, whole]

theorem refusesChecked (refuses : Refuses r name args e) : r.checkCall name args = .error e := by
  cases refuses with
  | unknown foreign =>
    have lacks : ∀ d ∈ r.descriptors, ¬ Overload name args.length d :=
      fun d member overload => foreign d member overload.1
    have candidate : r.candidate? name args.length = none := by
      rw [candidateIs, overloadNone.mpr lacks]
      simpa using foreign
    simp only [checkCall, missesWithout lacks, candidate]
  | @arity d first lacks =>
    have candidate : r.candidate? name args.length = some d := by
      rw [candidateIs, overloadNone.mpr lacks, findFirst.mpr first]
      rfl
    have count : d.prototype.params.length ≠ args.length :=
      fun count => lacks d first.mem ⟨first.1, count⟩
    simp only [checkCall, missesWithout lacks, candidate, if_pos count]
  | @argument d p a missed first mismatch =>
    have candidate : r.candidate? name args.length = some d := by
      rw [candidateIs, findFirst.mpr first]
      rfl
    have count : ¬ d.prototype.params.length ≠ args.length := not_not_intro first.1.2
    simp only [checkCall, missed, candidate, if_neg count, mismatchFound mismatch]

theorem missedRefuses (missed : r.find? name args = none) : ∃ e, Refuses r name args e := by
  cases overload : r.descriptors.find? (fun d => Overload name args.length d) with
  | some d =>
    have first := findFirst.mp overload
    obtain ⟨p, a, mismatch⟩ := firstMisses missed first
    exact ⟨_, .argument missed first mismatch⟩
  | none =>
    cases named : r.descriptors.find? (fun d => Named name d) with
    | some d => exact ⟨_, .arity (findFirst.mp named) (overloadNone.mp overload)⟩
    | none => exact ⟨_, .unknown (by simpa using named)⟩

/-- In any registry a call has the type of the builtin that its lookup finds. If it finds none, the
call is refused: for a name that no builtin has, for an arity that none of the name has, or for the
first argument that the first one of the arity does not take. -/
theorem callsChecked (r : Registry) (name : String) (args : List ShaderTy) :
    (∀ t, r.checkCall name args = .ok t ↔
      ∃ d, r.find? name args = some d ∧ d.prototype.returns = t) ∧
    ∀ e, r.checkCall name args = .error e ↔ Refuses r name args e := by
  cases found : r.find? name args with
  | some d =>
    have checked : r.checkCall name args = .ok d.prototype.returns := by rw [checkCall, found]
    refine ⟨fun t => by simp [checked], fun e => ⟨fun failed => ?_, refusesChecked⟩⟩
    rw [checked] at failed
    cases failed
  | none =>
    obtain ⟨e, refuses⟩ := missedRefuses found
    have checked := refusesChecked refuses
    refine ⟨fun t => by simp [checked], fun e' => ⟨fun failed => ?_, refusesChecked⟩⟩
    rw [checked] at failed
    cases failed
    exact refuses

example : checkCall ⟨[], [⟨⟨"mix", .float, [⟨"x", .float, .input⟩]⟩, false, []⟩,
      ⟨⟨"mix", .vec3, [⟨"r", .float, .input⟩, ⟨"g", .float, .input⟩, ⟨"b", .float, .input⟩]⟩,
        false, []⟩], []⟩ "mix" [.float, .float] = .error (.arity "mix" 1 2) := rfl

end Calls

end FixedIL.Builtin.Registry
