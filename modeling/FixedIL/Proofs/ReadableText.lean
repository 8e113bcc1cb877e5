import FixedIL.Printer
import Mathlib.Data.List.Forall2

/-!
Texts that show where they end. Two texts are settled by what follows them: if they are the same
together with their rests, then they were printed from the same and the rests are the same as well.
Words are settled by a rest that does not go on with a letter, and whatever is put together from
settled texts is settled piece by piece.
-/
namespace FixedIL.Printer

def isWordChar (c : Char) : Bool := c.isAlphanum || c == '_'

def Plain (name : String) : Prop := ∀ c ∈ name.toList, isWordChar c = true

instance (name : String) : Decidable (Plain name) :=
  decidable_of_iff (name.toList.all isWordChar = true) List.all_eq_true

def Leads (C : Char → Prop) (s : List Char) : Prop := ∃ c rest, s = c :: rest ∧ C c

def Letter (c : Char) : Prop := isWordChar c = true

def Apart (c : Char) : Prop := isWordChar c = false

def Closes (c : Char) : Prop := c = ')' ∨ c = ' ' ∨ c = '\n'

def Parts (c : Char) : Prop := c = ',' ∨ Closes c

def Opens (c : Char) : Prop := c = '%' ∨ c = '-' ∨ Letter c

instance (c : Char) : Decidable (Letter c) := by unfold Letter; infer_instance

instance (c : Char) : Decidable (Apart c) := by unfold Apart; infer_instance

instance (c : Char) : Decidable (Closes c) := by unfold Closes; infer_instance

instance (c : Char) : Decidable (Parts c) := by unfold Parts; infer_instance

theorem letterNever {c : Char} (letter : Letter c) : ¬ Apart c := by
  intro apart
  rw [Letter, apart] at letter
  cases letter

theorem partsApart {c : Char} (parts : Parts c) : Apart c := by
  rcases parts with rfl | rfl | rfl | rfl <;> decide

theorem signApart {c : Char} (sign : c = '%' ∨ c = '-') : Apart c := by
  rcases sign with rfl | rfl <;> decide

theorem opensNever {c : Char} (opens : Opens c) : ¬ Parts c := by
  intro parts
  rcases opens with rfl | rfl | letter
  · exact absurd parts (by decide)
  · exact absurd parts (by decide)
  · exact letterNever letter (partsApart parts)

section Leading

variable {C D : Char → Prop} {s t : List Char}

theorem Leads.append (leads : Leads C s) (t : List Char) : Leads C (s ++ t) := by
  obtain ⟨c, rest, rfl, holds⟩ := leads
  exact ⟨c, rest ++ t, rfl, holds⟩

theorem Leads.lead {x : String} (leads : Leads C x.toList) (y : String) :
    Leads C (x ++ y).toList := by
  rw [String.toList_append]
  exact leads.append _

theorem Leads.mono (leads : Leads C s) (weaker : ∀ c, C c → D c) : Leads D s := by
  obtain ⟨c, rest, whole, holds⟩ := leads
  exact ⟨c, rest, whole, weaker c holds⟩

theorem Leads.only {c : Char} (leads : Leads (· = c) s) (holds : D c) : Leads D s :=
  leads.mono fun _ is => is ▸ holds

theorem Leads.differs (leads : Leads C s) (leads' : Leads D t) (never : ∀ c, C c → ¬ D c) :
    s ≠ t := by
  obtain ⟨c, rest, rfl, holds⟩ := leads
  obtain ⟨d, rest', rfl, holds'⟩ := leads'
  intro same
  cases same
  exact never c holds holds'

end Leading

def Settles (A : List Char → Prop) (x y : String) (P : Prop) : Prop :=
  ∀ s t, A s → A t → x.toList ++ s = y.toList ++ t → P ∧ s = t

def Shows (A : List Char → Prop) (x : String) : Prop := ∀ s t, A s → A t → x.toList ++ s ≠ t

def Anything (_ : List Char) : Prop := True

section Pieces

variable {A B : List Char → Prop} {C D : Char → Prop} {P Q : Prop} {x x' y y' : String}

theorem settlesSame (lead : String) : Settles A lead lead True :=
  fun _ _ _ _ same => ⟨trivial, List.append_cancel_left same⟩

theorem settlesNever (differ : ∀ s t, A s → A t → x.toList ++ s ≠ y.toList ++ t) :
    Settles A x y P := fun s t fits fits' same => absurd same (differ s t fits fits')

theorem Settles.symm (settles : Settles A x y P) : Settles A y x P :=
  fun s t fits fits' same => (settles t s fits' fits same.symm).imp id Eq.symm

theorem Settles.mono (settles : Settles A x y P) (weaker : P → Q) : Settles A x y Q :=
  fun s t fits fits' same => (settles s t fits fits' same).imp weaker id

theorem Settles.follow (settles : Settles A x y P) (fits : ∀ s, B s → A s) : Settles B x y P :=
  fun s t known known' same => settles s t (fits s known) (fits t known') same

theorem Settles.parted (settles : Settles (Leads Apart) x y P) : Settles (Leads Parts) x y P :=
  settles.follow fun _ rest => rest.mono fun _ => partsApart

theorem Settles.append (first : Settles A x y P) (second : P → Settles B x' y' Q)
    (left : ∀ s, B s → A (x'.toList ++ s)) (right : ∀ s, B s → A (y'.toList ++ s)) :
    Settles B (x ++ x') (y ++ y') (P ∧ Q) := by
  intro s t fits fits' same
  rw [String.toList_append, String.toList_append, List.append_assoc, List.append_assoc] at same
  obtain ⟨holds, rest⟩ := first _ _ (left s fits) (right t fits') same
  obtain ⟨holds', last⟩ := second holds s t fits fits' rest
  exact ⟨⟨holds, holds'⟩, last⟩

theorem Settles.beyond (first : Settles Anything x y P) (second : Settles A x' y' Q) :
    Settles A (x ++ x') (y ++ y') (P ∧ Q) :=
  first.append (fun _ => second) (fun _ _ => trivial) fun _ _ => trivial

theorem Settles.behind (lead : String) (settles : Settles A x y P) :
    Settles A (lead ++ x) (lead ++ y) P := ((settlesSame lead).beyond settles).mono And.right

theorem Settles.closed (settles : Settles A x y P) (tail : String)
    (fits : ∀ s, A (tail.toList ++ s)) : Settles Anything (x ++ tail) (y ++ tail) P :=
  (settles.append (fun _ => settlesSame tail) (fun s _ => fits s) fun s _ => fits s).mono And.left

theorem Leads.shows (leads : Leads C x.toList) (never : ∀ c, C c → ¬ D c) : Shows (Leads D) x :=
  fun s _ _ rest => (leads.append s).differs rest never

theorem Leads.onlyShows {c : Char} (leads : Leads (· = c) x.toList) (never : ¬ D c) :
    Shows (Leads D) x := leads.shows fun _ is => is ▸ never

theorem Shows.missing (shows : Shows A x) : Settles A x "" P := settlesNever shows

theorem settlesOptional {a b : Prop} [Decidable a] [Decidable b] (settles : Settles A x y P)
    (left : ¬ a → Shows A x) (right : ¬ b → Shows A y) :
    Settles A (if a then "" else x) (if b then "" else y) (a ∧ b ∨ P) := by
  split <;> rename_i first <;> split <;> rename_i second
  · exact (settlesSame "").mono fun _ => .inl ⟨first, second⟩
  · exact (right second).missing.symm
  · exact (left first).missing
  · exact settles.mono .inr

theorem settlesUnlessEmpty {α : Type} {xs ys : List α} (settles : Settles A x y (xs = ys))
    (left : xs ≠ [] → Shows A x) (right : ys ≠ [] → Shows A y) :
    Settles A (if xs.isEmpty then "" else x) (if ys.isEmpty then "" else y) (xs = ys) := by
  have optional := settlesOptional (a := xs.isEmpty) (b := ys.isEmpty) settles
    (fun some => left (some ∘ List.isEmpty_iff.mpr))
    fun some => right (some ∘ List.isEmpty_iff.mpr)
  refine optional.mono fun known => known.elim (fun none => ?_) id
  rw [List.isEmpty_iff.mp none.1, List.isEmpty_iff.mp none.2]

end Pieces

section Words

variable {x y : String}

theorem takenWord {w s : List Char} (plain : ∀ c ∈ w, isWordChar c = true) (apart : Leads Apart s) :
    (w ++ s).takeWhile isWordChar = w ∧ (w ++ s).dropWhile isWordChar = s := by
  obtain ⟨c, rest, rfl, stops⟩ := apart
  have stop : isWordChar c = false := stops
  rw [List.takeWhile_append_of_pos plain, List.dropWhile_append_of_pos plain]
  simp [stop]

theorem settlesWord (plain : Plain x) (plain' : Plain y) : Settles (Leads Apart) x y (x = y) := by
  intro s t fits fits' same
  obtain ⟨word, rest⟩ := takenWord plain fits
  obtain ⟨word', rest'⟩ := takenWord plain' fits'
  rw [same] at word rest
  exact ⟨String.toList_inj.mp (word.symm.trans word'), rest.symm.trans rest'⟩

inductive Atom (x : String) : Prop where
  | word (plain : Plain x) (some : x ≠ "")
  | signed (c : Char) (w : String) (sign : c = '%' ∨ c = '-') (whole : x.toList = c :: w.toList)
      (plain : Plain w)

theorem wordLeads (plain : Plain x) (some : x ≠ "") : Leads Letter x.toList := by
  cases chars : x.toList with
  | nil => exact absurd (String.toList_inj.mp chars) some
  | cons c rest => exact ⟨c, rest, rfl, plain c (by rw [chars]; exact List.mem_cons_self)⟩

theorem atomOpens (atom : Atom x) : Leads Opens x.toList := by
  cases atom with
  | word plain some => exact (wordLeads plain some).mono fun _ letter => .inr (.inr letter)
  | signed c w sign whole plain => exact ⟨c, w.toList, whole, sign.imp_right .inl⟩

theorem settlesAtom (atom : Atom x) (atom' : Atom y) : Settles (Leads Apart) x y (x = y) := by
  have mixed {x y : String} {c : Char} {w : String} (plain : Plain x) (some : x ≠ "")
      (sign : c = '%' ∨ c = '-') (whole : y.toList = c :: w.toList) :
      Settles (Leads Apart) x y (x = y) := by
    have apart : Leads Apart y.toList := ⟨c, w.toList, whole, signApart sign⟩
    exact settlesNever fun s t _ _ =>
      ((wordLeads plain some).append s).differs (apart.append t) fun _ => letterNever
  cases atom with
  | word plain some =>
    cases atom' with
    | word plain' some' => exact settlesWord plain plain'
    | signed c w sign whole plain' => exact mixed plain some sign whole
  | signed c w sign whole plain =>
    cases atom' with
    | word plain' some' => exact (mixed plain' some' sign whole).symm.mono Eq.symm
    | signed c' w' sign' whole' plain' =>
      intro s t fits fits' same
      rw [whole, whole', List.cons_append, List.cons_append, List.cons.injEq] at same
      obtain ⟨rfl, rest⟩ := same
      obtain ⟨rfl, last⟩ := settlesWord plain plain' s t fits fits' rest
      exact ⟨String.toList_inj.mp (whole.trans whole'.symm), last⟩

end Words

section Lists

variable {α β : Type} {g : α → String} {h : β → String} {R : α → β → Prop} {xs : List α}
  {ys : List β}

theorem commaListCons (a : String) (rest : List String) :
    commaList (a :: rest) = a ++ if rest.isEmpty then "" else ", " ++ commaList rest := by
  cases rest with
  | nil => exact String.append_empty.symm
  | cons b rest =>
    have split := String.intercalate_cons_of_ne_nil (s := ", ") (t := a) (List.cons_ne_nil b rest)
    exact split.trans (String.append_assoc ..)

theorem commaListLeads {C : Char → Prop} {a : String} (leads : Leads C a.toList)
    (rest : List String) : Leads C (commaList (a :: rest)).toList := by
  rw [commaListCons]
  exact leads.lead _

theorem commaLeads (tail : String) : Leads (· = ',') (", " ++ tail).toList := by
  have comma : Leads (· = ',') ", ".toList := ⟨',', _, rfl, rfl⟩
  exact comma.lead tail

theorem restParted (rest : List String) (s : List Char) (last : Leads Closes s) :
    Leads Parts ((if rest.isEmpty then "" else ", " ++ commaList rest).toList ++ s) := by
  split
  · exact last.mono fun _ => .inr
  · exact ((commaLeads (commaList rest)).append s).only (.inl rfl)

theorem settlesList (each : ∀ x ∈ xs, ∀ y ∈ ys, Settles (Leads Parts) (g x) (h y) (R x y))
    (opens : ∀ x ∈ xs, Leads Opens (g x).toList) (opens' : ∀ y ∈ ys, Leads Opens (h y).toList) :
    Settles (Leads Closes) (commaList (xs.map g)) (commaList (ys.map h))
      (List.Forall₂ R xs ys) := by
  have comma (tail : String) : Shows (Leads Closes) (", " ++ tail) :=
    (commaLeads tail).onlyShows (by decide)
  have begun {a : String} (rest : List String) (opens : Leads Opens a.toList) :
      Shows (Leads Closes) (commaList (a :: rest)) :=
    (commaListLeads opens rest).shows fun c opens closes => opensNever opens (.inr closes)
  -- A list that ends where the other goes on would have an end look like an item or a comma.
  induction xs generalizing ys with
  | nil =>
    cases ys with
    | nil => exact (settlesSame "").mono fun _ => .nil
    | cons y ys => exact (begun (ys.map h) (opens' y List.mem_cons_self)).missing.symm
  | cons x xs ih =>
    cases ys with
    | nil => exact (begun (xs.map g) (opens x List.mem_cons_self)).missing
    | cons y ys =>
      have first := each x List.mem_cons_self y List.mem_cons_self
      have others : Settles (Leads Closes) (commaList (xs.map g)) (commaList (ys.map h))
          (List.Forall₂ R xs ys) :=
        ih (fun x member y among =>
            each x (List.mem_cons_of_mem _ member) y (List.mem_cons_of_mem _ among))
          (fun x member => opens x (List.mem_cons_of_mem _ member))
          (fun y member => opens' y (List.mem_cons_of_mem _ member))
      have tails := settlesOptional (a := (xs.map g).isEmpty) (b := (ys.map h).isEmpty)
        (others.behind ", ") (fun _ => comma _) fun _ => comma _
      rw [List.map_cons, List.map_cons, commaListCons, commaListCons]
      refine (first.append (fun _ => tails) (restParted _) (restParted _)).mono ?_
      rintro ⟨holds, ⟨none, none'⟩ | rest⟩
      · rw [List.isEmpty_iff, List.map_eq_nil_iff] at none none'
        subst none none'
        exact .cons holds .nil
      · exact .cons holds rest

theorem settlesItems {xs ys : List α}
    (each : ∀ x ∈ xs, ∀ y ∈ ys, Settles (Leads Parts) (g x) (g y) (x = y))
    (opens : ∀ x ∈ xs, Leads Opens (g x).toList) (opens' : ∀ y ∈ ys, Leads Opens (g y).toList) :
    Settles (Leads Closes) (commaList (xs.map g)) (commaList (ys.map g)) (xs = ys) := by
  have settles := settlesList each opens opens'
  rwa [List.forall₂_eq_eq_eq] at settles

theorem settlesAtoms {xs ys : List α} (atom : ∀ x ∈ xs, Atom (g x)) (atom' : ∀ y ∈ ys, Atom (g y))
    (injective : ∀ x ∈ xs, ∀ y ∈ ys, g x = g y → x = y) :
    Settles (Leads Closes) (commaList (xs.map g)) (commaList (ys.map g)) (xs = ys) :=
  settlesItems
    (fun x member y among => ((settlesAtom (atom x member) (atom' y among)).mono
      (injective x member y among)).parted)
    (fun x member => atomOpens (atom x member)) fun y among => atomOpens (atom' y among)

theorem settlesEnclosed {x y : String} {P : Prop} (lead : String)
    (inside : Settles (Leads Closes) x y P) :
    Settles Anything (lead ++ x ++ ")") (lead ++ y ++ ")") P :=
  (inside.behind lead).closed ")" fun _ => ⟨')', _, rfl, .inl rfl⟩

theorem bracketLeads (x : String) : Leads (· = '(') ("(" ++ x ++ ")").toList := by
  have bracket : Leads (· = '(') "(".toList := ⟨'(', _, rfl, rfl⟩
  exact (bracket.lead x).lead ")"

theorem settlesBracketed {C : Char → Prop} {x y : String} {xs ys : List α}
    (inside : Settles (Leads Closes) x y (xs = ys)) (never : ¬ C '(') :
    Settles (Leads C) (if xs.isEmpty then "" else "(" ++ x ++ ")")
      (if ys.isEmpty then "" else "(" ++ y ++ ")") (xs = ys) :=
  settlesUnlessEmpty ((settlesEnclosed "(" inside).follow fun _ _ => trivial)
    (fun _ => (bracketLeads x).onlyShows never) fun _ => (bracketLeads y).onlyShows never

theorem bracketedLeads {C : Char → Prop} {s : List Char} (xs : List α) (x : String)
    (rest : Leads C s) (opens : C '(') :
    Leads C ((if xs.isEmpty then "" else "(" ++ x ++ ")").toList ++ s) := by
  split
  · exact rest
  · exact ((bracketLeads x).append s).only opens

theorem joinLeads {C : Char → Prop} (leads : ∀ x ∈ xs, Leads C (g x).toList) {s : List Char}
    (finish : Leads C s) : Leads C ((String.join (xs.map g)).toList ++ s) := by
  cases xs with
  | nil => exact finish
  | cons x rest =>
    rw [List.map_cons, String.join_cons]
    exact ((leads x List.mem_cons_self).lead _).append s

theorem settlesJoin {C D : Char → Prop} (never : ∀ c, C c → ¬ D c)
    (each : ∀ x ∈ xs, ∀ y ∈ ys, Settles (Leads fun c => C c ∨ D c) (g x) (h y) (R x y))
    (begins : ∀ x ∈ xs, Leads C (g x).toList) (begins' : ∀ y ∈ ys, Leads C (h y).toList) :
    Settles (Leads D) (String.join (xs.map g)) (String.join (ys.map h))
      (List.Forall₂ R xs ys) := by
  have begun {a : String} (rest : List String) (leads : Leads C a.toList) :
      Shows (Leads D) (String.join (a :: rest)) := by
    rw [String.join_cons]
    exact (leads.lead _).shows never
  induction xs generalizing ys with
  | nil =>
    cases ys with
    | nil => exact (settlesSame "").mono fun _ => .nil
    | cons y ys => exact (begun (ys.map h) (begins' y List.mem_cons_self)).missing.symm
  | cons x xs ih =>
    cases ys with
    | nil => exact (begun (xs.map g) (begins x List.mem_cons_self)).missing
    | cons y ys =>
      have first := each x List.mem_cons_self y List.mem_cons_self
      have begin (x : α) (member : x ∈ xs) := begins x (List.mem_cons_of_mem _ member)
      have begin' (y : β) (member : y ∈ ys) := begins' y (List.mem_cons_of_mem _ member)
      have others := ih (fun x member y among =>
        each x (List.mem_cons_of_mem _ member) y (List.mem_cons_of_mem _ among)) begin begin'
      rw [List.map_cons, List.map_cons, String.join_cons, String.join_cons]
      refine (first.append (fun _ => others) (fun s last => ?_) fun s last => ?_).mono
        fun both => .cons both.1 both.2
      · exact joinLeads (fun x member => (begin x member).mono fun _ => .inl)
          (last.mono fun _ => .inr)
      · exact joinLeads (fun y member => (begin' y member).mono fun _ => .inl)
          (last.mono fun _ => .inr)

end Lists

end FixedIL.Printer
