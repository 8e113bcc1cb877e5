import FixedIL.Builtin.PrototypeText
import Mathlib.Data.List.TakeWhile

/-!
The cuts that a reader of prototypes makes: into words at blanks, at the outer blanks, and at the
first opening and the last closing parenthesis. Each is told by the text that it is made of.
-/
namespace FixedIL.Builtin

namespace Text

def Blank (cs : List Char) : Prop := ∀ c ∈ cs, isBlank c = true

structure Word (w : List Char) : Prop where
  some : w ≠ []
  solid : ∀ c ∈ w, isBlank c = false

inductive Words : List Char → List (List Char) → Prop where
  | none {cs : List Char} (blank : Blank cs) : Words cs []
  | word {front w rest : List Char} {ws : List (List Char)} (blank : Blank front) (word : Word w)
      (apart : ∀ c ∈ rest.head?, isBlank c = true) (more : Words rest ws) :
      Words (front ++ w ++ rest) (w :: ws)

section Words

variable {cs front back w rest : List Char} {ws : List (List Char)} {c : Char}
  {separates : Char → Bool}

theorem others (fresh : c ∉ cs) : ∀ d ∈ cs, (d == c) = false := fun d member => by
  have other : d ≠ c := fun same => fresh (same ▸ member)
  simpa using other

theorem Blank.cons (blank : isBlank c = true) (rest : Blank cs) : Blank (c :: cs) := by
  intro d member
  rcases List.mem_cons.mp member with rfl | member
  · exact blank
  · exact rest d member

theorem Blank.append (first : Blank front) (last : Blank back) : Blank (front ++ back) :=
  fun c member => (List.mem_append.mp member).elim (first c) (last c)

theorem Blank.misses (blank : Blank cs) (solid : isBlank c = false) : c ∉ cs := by
  intro member
  rw [blank c member] at solid
  cases solid

theorem Word.ofLetters (some : w ≠ []) (plain : w.any isBlank = false) : Word w :=
  ⟨some, fun c letter => Bool.eq_false_iff.mpr (List.any_eq_false.mp plain c letter)⟩

theorem splitIs (separates : Char → Bool) (cs : List Char) :
    split separates cs = cs.splitOnP separates := by
  induction cs with
  | nil => rfl
  | cons c rest ih =>
    rw [split, ih, List.splitOnP_cons_eq_if_modifyHead]
    cases pieces : rest.splitOnP separates with
    | nil => exact absurd pieces (List.splitOnP_ne_nil _ _)
    | cons piece more => rfl

theorem splitAt (fresh : ∀ d ∈ front, separates d = false) (here : separates c = true) :
    split separates (front ++ c :: back) = front :: split separates back := by
  rw [splitIs, splitIs, List.splitOnP_append_cons_of_forall_mem fresh c here]

theorem splitFresh (fresh : ∀ d ∈ cs, separates d = false) : split separates cs = [cs] := by
  rw [splitIs, List.splitOnP_eq_singleton fresh]

theorem wordsBehind (blank : isBlank c = true) (cs : List Char) : words (c :: cs) = words cs := by
  simp [words, split, blank]

theorem wordsBlank (blank : Blank front) (cs : List Char) : words (front ++ cs) = words cs := by
  induction front with
  | nil => rfl
  | cons c rest ih =>
    rw [List.cons_append, wordsBehind (blank c List.mem_cons_self)]
    exact ih fun d member => blank d (List.mem_cons_of_mem _ member)

theorem wordsWord (word : Word w) (apart : ∀ c ∈ rest.head?, isBlank c = true) :
    words (w ++ rest) = w :: words rest := by
  have kept : (!w.isEmpty) = true := by simp [word.some]
  cases rest with
  | nil => simp [words, splitFresh word.solid, split, kept]
  | cons c rest =>
    have blank : isBlank c = true := apart c rfl
    rw [wordsBehind blank, words, splitAt word.solid blank]
    exact List.filter_cons_of_pos kept

theorem Words.given (spelled : Words cs ws) : words cs = ws := by
  induction spelled with
  | none blank =>
    have none := wordsBlank blank []
    rwa [List.append_nil] at none
  | word blank word apart more ih =>
    rw [List.append_assoc, wordsBlank blank, wordsWord word apart, ih]

theorem Words.behind (blank : isBlank c = true) (spelled : Words cs ws) : Words (c :: cs) ws := by
  cases spelled with
  | none rest => exact .none (Blank.cons blank rest)
  | word rest word apart more => exact .word (Blank.cons blank rest) word apart more

theorem Words.after (blank : Blank front) (spelled : Words cs ws) : Words (front ++ cs) ws := by
  induction front with
  | nil => exact spelled
  | cons c rest ih =>
    exact .behind (blank c List.mem_cons_self)
      (ih fun d member => blank d (List.mem_cons_of_mem _ member))

theorem Words.before (spelled : Words cs ws) (blank : Blank back) : Words (cs ++ back) ws := by
  induction spelled with
  | none rest => exact .none (rest.append blank)
  | @word front w rest ws first word apart more ih =>
    rw [List.append_assoc]
    refine .word first word (fun c head => ?_) ih
    cases rest with
    | nil => exact blank c (List.mem_of_mem_head? head)
    | cons d rest => exact apart c head

theorem Words.here (word : Word w) (apart : ∀ c ∈ rest.head?, isBlank c = true)
    (more : Words rest ws) : Words (w ++ rest) (w :: ws) :=
  @Words.word [] w rest ws nofun word apart more

theorem Words.letter (solid : isBlank c = false) (spelled : Words cs ws) :
    ∃ ws', Words (c :: cs) ws' := by
  have single : Word [c] := ⟨List.cons_ne_nil _ _, by simp [solid]⟩
  cases spelled with
  | none blank =>
    exact ⟨[[c]], .here single (fun d head => blank d (List.mem_of_mem_head? head)) (.none blank)⟩
  | @word front w rest ws blank word apart more =>
    cases front with
    | nil =>
      have longer : Word (c :: w) := by
        refine ⟨List.cons_ne_nil _ _, fun d member => ?_⟩
        rcases List.mem_cons.mp member with rfl | member
        · exact solid
        · exact word.solid d member
      exact ⟨(c :: w) :: ws, .here longer apart more⟩
    | cons b front =>
      have gap : ∀ d ∈ (b :: front ++ w ++ rest).head?, isBlank d = true := by
        intro d head
        cases head
        exact blank b List.mem_cons_self
      exact ⟨[c] :: w :: ws, .here single gap (.word blank word apart more)⟩

theorem wordsExist (cs : List Char) : ∃ ws, Words cs ws := by
  induction cs with
  | nil => exact ⟨[], .none nofun⟩
  | cons c rest ih =>
    obtain ⟨ws, spelled⟩ := ih
    cases blank : isBlank c with
    | true => exact ⟨ws, spelled.behind blank⟩
    | false => exact spelled.letter blank

theorem wordsIff : words cs = ws ↔ Words cs ws := by
  refine ⟨fun is => ?_, Words.given⟩
  obtain ⟨ws', spelled⟩ := wordsExist cs
  rwa [← is, spelled.given]

theorem Words.single (word : Word w) : Words w [w] := by
  have none : Words ([] : List Char) [] := .none nofun
  have bare := Words.here word (fun c head => by cases head) none
  rwa [List.append_nil] at bare

theorem Words.spaced (word : Word w) (spelled : Words cs ws) : Words (w ++ ' ' :: cs) (w :: ws) := by
  have apart : ∀ c ∈ (' ' :: cs).head?, isBlank c = true := by
    intro c head
    cases head
    rfl
  exact .here word apart (spelled.behind rfl)

theorem Words.each (spelled : Words cs ws) (member : w ∈ ws) : Word w ∧ w ⊆ cs := by
  induction spelled with
  | none blank => cases member
  | @word front first rest ws blank word apart more ih =>
    rcases List.mem_cons.mp member with rfl | member
    · exact ⟨word, fun c among => by simp [among]⟩
    · obtain ⟨solid, within⟩ := ih member
      exact ⟨solid, fun c among => List.mem_append_right _ (within among)⟩

end Words

section Trim

variable {cs front mid back w : List Char} {ws : List (List Char)} {c d : Char}

theorem wordsDrop (cs : List Char) : words (cs.dropWhile isBlank) = words cs := by
  have blank : Blank (cs.takeWhile isBlank) := fun c member => List.mem_takeWhile_imp member
  have same := wordsBlank blank (cs.dropWhile isBlank)
  rw [List.takeWhile_append_dropWhile] at same
  exact same.symm

theorem trimSplit (cs : List Char) :
    ∃ front back, Blank front ∧ Blank back ∧ cs = front ++ (trim cs ++ back) := by
  let rest := cs.dropWhile isBlank
  refine ⟨cs.takeWhile isBlank, (rest.reverse.takeWhile isBlank).reverse, fun c member => ?_,
    fun c member => ?_, ?_⟩
  · exact List.mem_takeWhile_imp member
  · exact List.mem_takeWhile_imp (List.mem_reverse.mp member)
  · have ends : rest.reverse.takeWhile isBlank ++ rest.reverse.dropWhile isBlank = rest.reverse :=
      List.takeWhile_append_dropWhile
    rw [trim, ← List.reverse_append, ends, List.reverse_reverse]
    exact List.takeWhile_append_dropWhile.symm

theorem wordsTrim (cs : List Char) : words (trim cs) = words cs := by
  obtain ⟨front, back, first, last, whole⟩ := trimSplit cs
  have inner : Words (trim cs) (words (trim cs)) := wordsIff.mp rfl
  have outer := (inner.before last).after first
  rw [← whole] at outer
  exact outer.given.symm

theorem trimEmpty : trim cs = [] ↔ Blank cs := by
  constructor
  · intro none
    obtain ⟨front, back, first, last, whole⟩ := trimSplit cs
    rw [none, List.nil_append] at whole
    rw [whole]
    exact first.append last
  · intro blank
    rw [trim, List.dropWhile_eq_nil_iff.mpr blank]
    rfl

theorem trimWord (word : Word w) : trim w = w := by
  have keeps {cs : List Char} (solid : ∀ c ∈ cs, isBlank c = false) : cs.dropWhile isBlank = cs := by
    cases cs with
    | nil => rfl
    | cons c rest => simp [solid c List.mem_cons_self]
  have back : ∀ c ∈ w.reverse, isBlank c = false := fun c member =>
    word.solid c (List.mem_reverse.mp member)
  rw [trim, keeps word.solid, keeps back, List.reverse_reverse]

theorem dropBefore (solid : isBlank c = false) (front back : List Char) :
    (front ++ c :: back).dropWhile isBlank = front.dropWhile isBlank ++ c :: back := by
  induction front with
  | nil => simp [solid]
  | cons d rest ih =>
    cases blank : isBlank d with
    | true => simp [blank, ih]
    | false => simp [blank]

theorem trimAround (first : isBlank c = false) (last : isBlank d = false)
    (front mid back : List Char) : trim (front ++ c :: (mid ++ d :: back)) =
      front.dropWhile isBlank ++ c :: (mid ++ d :: (back.reverse.dropWhile isBlank).reverse) := by
  have flipped : (front.dropWhile isBlank ++ c :: (mid ++ d :: back)).reverse =
      back.reverse ++ d :: (front.dropWhile isBlank ++ c :: mid).reverse := by simp
  rw [trim, dropBefore first, flipped, dropBefore last]
  simp

end Trim

section Parentheses

variable {cs head inside front back : List Char} {c : Char}

theorem firstAt (fresh : c ∉ front) (back : List Char) :
    (front ++ c :: back).findIdx? (· == c) = some front.length := by
  have none : front.findIdx? (· == c) = none := List.findIdx?_eq_none_iff.mpr (others fresh)
  rw [List.findIdx?_append, none]
  simp [List.findIdx?_cons]

theorem parenthesisedAt {tail : List Char} (first : '(' ∉ head) (last : ')' ∉ tail) :
    parenthesised (head ++ '(' :: (inside ++ ')' :: tail)) = some (head, inside) := by
  have start := firstAt first (inside ++ ')' :: tail)
  have flipped : (head ++ '(' :: (inside ++ ')' :: tail)).reverse =
      tail.reverse ++ ')' :: (head ++ '(' :: inside).reverse := by simp
  have back := firstAt (mt List.mem_reverse.mp last) (head ++ '(' :: inside).reverse
  have stop : (head ++ '(' :: (inside ++ ')' :: tail)).length - 1 - tail.reverse.length =
      (head ++ '(' :: inside).length := by
    simp only [List.length_append, List.length_cons, List.length_reverse]
    omega
  have order : head.length < (head ++ '(' :: inside).length := by simp
  have front : (head ++ '(' :: (inside ++ ')' :: tail)).take head.length = head :=
    List.take_left' rfl
  have upTo : (head ++ '(' :: (inside ++ ')' :: tail)).take (head ++ '(' :: inside).length =
      head ++ '(' :: inside := by
    have whole : head ++ '(' :: (inside ++ ')' :: tail) = (head ++ '(' :: inside) ++ ')' :: tail := by
      simp
    rw [whole]
    exact List.take_left' rfl
  have between : (head ++ '(' :: inside).drop (head.length + 1) = inside := by simp
  rw [← flipped] at back
  simp only [parenthesised, start, back, stop, bind, Option.bind, if_pos order, front, upTo, between]

theorem firstSplit {cs : List Char} {n : Nat} (found : cs.findIdx? (· == c) = some n) :
    ∃ front back, cs = front ++ c :: back ∧ c ∉ front ∧ front.length = n := by
  obtain ⟨low, here, -⟩ := List.findIdx?_eq_some_iff_getElem.mp found
  have member : c ∈ cs := beq_iff_eq.mp here ▸ List.getElem_mem low
  obtain ⟨front, back, rfl, fresh⟩ := List.eq_append_cons_of_mem member
  rw [firstAt fresh back] at found
  exact ⟨front, back, rfl, fresh, Option.some.inj found⟩

theorem splitBetween {a b : Char} {rest : List Char}
    (same : front ++ a :: rest = head ++ b :: back) (order : front.length < head.length) :
    ∃ within, rest = within ++ b :: back := by
  rcases List.append_eq_append_iff.mp same with ⟨more, isHead, isRest⟩ | ⟨more, isFront, -⟩
  · cases more with
    | nil =>
      rw [isHead, List.append_nil] at order
      exact absurd order (Nat.lt_irrefl _)
    | cons c within => exact ⟨within, (List.cons.inj isRest).2⟩
  · rw [isFront, List.length_append] at order
    omega

theorem parenthesisedIff : parenthesised cs = some (head, inside) ↔
    ∃ tail, cs = head ++ '(' :: (inside ++ ')' :: tail) ∧ '(' ∉ head ∧ ')' ∉ tail := by
  refine ⟨fun cut => ?_, fun ⟨tail, is, first, last⟩ => is ▸ parenthesisedAt first last⟩
  have found := cut
  simp only [parenthesised, Option.bind_eq_bind, Option.bind_eq_some_iff] at found
  obtain ⟨start, opens, back, closes, found⟩ := found
  split at found
  · rename_i order
    obtain ⟨front, rest, whole, first, rfl⟩ := firstSplit opens
    obtain ⟨tail, before, flipped, last, rfl⟩ := firstSplit closes
    rw [← List.mem_reverse] at last
    have whole' : cs = before.reverse ++ ')' :: tail.reverse := by
      rw [← List.reverse_reverse cs, flipped]
      simp
    have count : front.length < before.reverse.length := by
      rw [whole'] at order
      simp only [List.length_append, List.length_cons, List.length_reverse] at order ⊢
      omega
    obtain ⟨within, rfl⟩ := splitBetween (whole.symm.trans whole') count
    rw [whole, parenthesisedAt first last] at cut
    cases cut
    exact ⟨tail.reverse, whole, first, last⟩
  · cases found

end Parentheses
end Text
end FixedIL.Builtin
