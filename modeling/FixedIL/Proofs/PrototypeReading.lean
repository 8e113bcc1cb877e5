import FixedIL.Proofs.PrototypeWords

/-!
How prototypes are spelled. What the reader accepts by searches, cuts and counts is told here by a
grammar: words with blanks around them, pieces between commas, and a list in parentheses. What is
printed is spelled by the grammar, so that it is read back. Behind the list the reader looks at
nothing.
-/
namespace FixedIL.Builtin

namespace ShaderTy

variable {t : ShaderTy} {w : List Char}

theorem nameWord (t : ShaderTy) : Text.Word t.name.toList := by
  cases t <;> exact .ofLetters (by decide) (by decide)

theorem ofTextIff (word : Text.Word w) : ofText? w = some t ↔ w = t.name.toList := by
  have trimmed : Text.trim w = w := Text.trimWord word
  constructor
  · intro found
    have same := List.find?_some found
    rw [trimmed, decide_eq_true_eq] at same
    exact same.symm
  · rintro rfl
    cases t <;> decide

end ShaderTy

namespace Direction

variable {d : Direction} {w : List Char}

theorem nameWord (d : Direction) : Text.Word d.name.toList := by
  cases d <;> exact .ofLetters (by decide) (by decide)

theorem ofTextIff : ofText? w = some d ↔ w = d.name.toList := by
  constructor
  · intro found
    have same := List.find?_some found
    rw [decide_eq_true_eq] at same
    exact same.symm
  · rintro rfl
    cases d <;> decide

theorem ofTypeNone (t : ShaderTy) : ofText? t.name.toList = none := by
  cases t <;> decide

end Direction

namespace Param

def spelling (p : Param) : List (List Char) :=
  p.type.name.toList :: if p.name.isEmpty then [] else [p.name.toList]

inductive Spelled (p : Param) : List (List Char) → Prop where
  | full : p.Spelled (p.direction.name.toList :: p.spelling)
  | short (input : p.direction = .input) : p.Spelled p.spelling

structure Printable (p : Param) : Prop where
  value : p.type ≠ .void
  name : ∀ c ∈ p.name.toList, Text.isBlank c = false ∧ c ≠ ','

variable {p : Param} {token : List Char} {ws : List (List Char)} {d : Direction}

theorem ofWordsIff (words : ∀ w ∈ ws, Text.Word w) :
    ofWords token d ws = .ok p ↔ ws = p.spelling ∧ p.direction = d ∧ p.type ≠ .void := by
  constructor
  · intro read
    cases ws with
    | nil => cases read
    | cons word rest =>
      have first : Text.Word word := words word List.mem_cons_self
      simp only [ofWords] at read
      split at read
      · cases read
      · cases read
      · rename_i type value found
        obtain rfl := (ShaderTy.ofTextIff first).mp found
        match rest with
        | [] =>
          cases read
          exact ⟨rfl, rfl, value⟩
        | [name] =>
          cases read
          have some : name ≠ [] := (words name (by simp)).some
          exact ⟨by simp [spelling, some], rfl, value⟩
        | _ :: _ :: _ => cases read
  · rintro ⟨rfl, rfl, value⟩
    have found : ShaderTy.ofText? p.type.name.toList = some p.type :=
      (ShaderTy.ofTextIff p.type.nameWord).mpr rfl
    obtain ⟨name, type, direction⟩ := p
    rw [spelling, ofWords, found]
    cases empty : name.isEmpty with
    | true =>
      obtain rfl := String.isEmpty_iff.mp empty
      cases type with
      | void => exact absurd rfl value
      | _ => rfl
    | false =>
      cases type with
      | void => exact absurd rfl value
      | _ => simp

theorem parseIff : parse token = .ok p ↔ p.type ≠ .void ∧ p.Spelled (Text.words token) := by
  have each : ∀ w ∈ Text.words token, Text.Word w := fun w member =>
    ((Text.wordsIff.mp rfl).each member).1
  generalize read : Text.words token = ws at each
  simp only [parse, read]
  constructor
  · intro parsed
    cases ws with
    | nil => cases parsed
    | cons first rest =>
      simp only at parsed
      split at parsed
      · rename_i d told
        obtain ⟨rfl, same, value⟩ :=
          (ofWordsIff fun w member => each w (List.mem_cons_of_mem _ member)).mp parsed
        rw [Direction.ofTextIff.mp told, ← same]
        exact ⟨value, .full⟩
      · obtain ⟨is, input, value⟩ := (ofWordsIff each).mp parsed
        rw [is]
        exact ⟨value, .short input⟩
  · rintro ⟨value, spelled⟩
    cases spelled with
    | full =>
      simp only [Direction.ofTextIff.mpr rfl]
      exact (ofWordsIff fun w member => each w (List.mem_cons_of_mem _ member)).mpr ⟨rfl, rfl, value⟩
    | short input =>
      have untold : Direction.ofText? p.type.name.toList = none := Direction.ofTypeNone p.type
      simp only [spelling, untold]
      exact (ofWordsIff each).mpr ⟨rfl, input, value⟩

end Param

inductive Piece : List Char → List Param → Prop where
  | nothing {cs : List Char} (blank : Text.Blank cs) : Piece cs []
  | param {cs : List Char} {ws : List (List Char)} {p : Param} (value : p.type ≠ .void)
      (words : Text.Words cs ws) (spelled : p.Spelled ws) : Piece cs [p]

inductive Listed : List Char → List Param → Prop where
  | last {cs : List Char} {ps : List Param} (fresh : ',' ∉ cs) (piece : Piece cs ps) : Listed cs ps
  | comma {cs rest : List Char} {ps qs : List Param} (fresh : ',' ∉ cs) (piece : Piece cs ps)
      (more : Listed rest qs) : Listed (cs ++ ',' :: rest) (ps ++ qs)

section Lists

variable {α β ε : Type} {cs rest inside : List Char} {ps qs : List Param} {c : Char}

theorem boundIff {x : Except ε α} {g : α → Except ε β} {b : β} :
    x >>= g = .ok b ↔ ∃ a, x = .ok a ∧ g a = .ok b := by
  cases x with
  | error e => exact ⟨nofun, nofun⟩
  | ok a => exact ⟨fun ends => ⟨a, rfl, ends⟩, fun ⟨_, is, ends⟩ => by cases is; exact ends⟩

theorem splitParamsFresh (fresh : ',' ∉ cs) :
    Text.splitParams cs = [Text.trim cs].filter fun w => !w.isEmpty := by
  rw [Text.splitParams, Text.splitFresh (Text.others fresh)]
  rfl

theorem splitParamsComma (fresh : ',' ∉ cs) : Text.splitParams (cs ++ ',' :: rest) =
    Text.splitParams cs ++ Text.splitParams rest := by
  rw [Text.splitParams, Text.splitAt (Text.others fresh) (beq_self_eq_true ','),
    splitParamsFresh fresh, List.map_cons, ← List.singleton_append, List.filter_append]
  rfl

theorem Param.Spelled.some {p : Param} {ws : List (List Char)} (spelled : p.Spelled ws) :
    ws ≠ [] := by
  cases spelled <;> exact List.cons_ne_nil _ _

theorem pieceIff (fresh : ',' ∉ cs) :
    (Text.splitParams cs).mapM Param.parse = .ok ps ↔ Piece cs ps := by
  rw [splitParamsFresh fresh]
  cases trimmed : Text.trim cs with
  | nil =>
    have blank : Text.Blank cs := Text.trimEmpty.mp trimmed
    constructor
    · intro parsed
      cases parsed
      exact .nothing blank
    · rintro (- | ⟨value, words, spelled⟩)
      · rfl
      · exact absurd (words.given.symm.trans (Text.Words.none blank).given) spelled.some
  | cons c token =>
    have one : [c :: token].filter (fun w => !w.isEmpty) = [c :: token] := rfl
    have wordsOf : Text.words (c :: token) = Text.words cs := by rw [← trimmed, Text.wordsTrim]
    simp only [one, List.mapM_cons, List.mapM_nil, boundIff, Param.parseIff, wordsOf]
    constructor
    · rintro ⟨p, ⟨value, spelled⟩, qs, none, is⟩
      cases none
      cases is
      exact .param value (Text.wordsIff.mp rfl) spelled
    · rintro (blank | ⟨value, words, spelled⟩)
      · rw [Text.trimEmpty.mpr blank] at trimmed
        cases trimmed
      · rw [words.given]
        exact ⟨_, ⟨value, spelled⟩, [], rfl, rfl⟩

theorem Listed.parsed (listed : Listed inside ps) :
    (Text.splitParams inside).mapM Param.parse = .ok ps := by
  induction listed with
  | last fresh piece => exact (pieceIff fresh).mpr piece
  | comma fresh piece more ih =>
    rw [splitParamsComma fresh, List.mapM_append, (pieceIff fresh).mpr piece, ih]
    rfl

theorem parsedListed (inside : List Char) (ps : List Param)
    (parsed : (Text.splitParams inside).mapM Param.parse = .ok ps) : Listed inside ps := by
  by_cases comma : ',' ∈ inside
  · obtain ⟨cs, rest, whole, fresh⟩ := List.eq_append_cons_of_mem comma
    have shorter : rest.length < inside.length := by
      rw [whole, List.length_append, List.length_cons]
      omega
    rw [whole, splitParamsComma fresh, List.mapM_append] at parsed
    obtain ⟨first, piece, parsed⟩ := boundIff.mp parsed
    obtain ⟨others, more, is⟩ := boundIff.mp parsed
    cases is
    rw [whole]
    exact .comma fresh ((pieceIff fresh).mp piece) (parsedListed rest others more)
  · exact .last comma ((pieceIff comma).mp parsed)
termination_by inside.length

theorem listedIff : (Text.splitParams inside).mapM Param.parse = .ok ps ↔ Listed inside ps :=
  ⟨parsedListed inside ps, Listed.parsed⟩

end Lists

section Printing

variable {p q : Param} {ps : List Param} {ws : List (List Char)} {cs inside : List Char}

theorem Param.Spelled.named (spelled : q.Spelled ws) (some : q.name ≠ "") : q.name.toList ∈ ws := by
  have among : q.name.toList ∈ q.spelling := by simp [Param.spelling, some]
  cases spelled with
  | full => exact List.mem_cons_of_mem _ among
  | short => exact among

theorem Piece.each (piece : Piece cs ps) (fresh : ',' ∉ cs) (member : q ∈ ps) :
    q.Printable := by
  cases piece with
  | nothing blank => cases member
  | param value words spelled =>
    obtain rfl := List.mem_singleton.mp member
    refine ⟨value, fun c letter => ?_⟩
    have some : q.name ≠ "" := fun none => by
      rw [none] at letter
      cases letter
    obtain ⟨word, within⟩ := words.each (spelled.named some)
    exact ⟨word.solid c letter, fun comma => fresh (comma ▸ within letter)⟩

theorem Listed.each (listed : Listed inside ps) (member : q ∈ ps) :
    q.Printable := by
  induction listed with
  | last fresh piece => exact piece.each fresh member
  | comma fresh piece more ih =>
    rcases List.mem_append.mp member with first | later
    · exact piece.each fresh first
    · exact ih later

theorem Param.textWords (name : ∀ c ∈ q.name.toList, Text.isBlank c = false) :
    Text.Words q.text.toList (q.direction.name.toList :: q.spelling) := by
  cases empty : q.name.isEmpty with
  | true =>
    have shape : q.text.toList = q.direction.name.toList ++ ' ' :: q.type.name.toList := by
      simp [Param.text, Param.keyText, empty]
    rw [shape, Param.spelling, if_pos empty]
    exact .spaced q.direction.nameWord (.single q.type.nameWord)
  | false =>
    have some : q.name.toList ≠ [] := by simpa using empty
    have shape : q.text.toList =
        q.direction.name.toList ++ ' ' :: (q.type.name.toList ++ ' ' :: q.name.toList) := by
      simp [Param.text, Param.keyText, empty]
    rw [shape, Param.spelling, if_neg (by simp [empty])]
    exact .spaced q.direction.nameWord (.spaced q.type.nameWord (.single ⟨some, name⟩))

theorem Param.textFresh (name : ∀ c ∈ q.name.toList, c ≠ ',') : ',' ∉ q.text.toList := by
  have direction : ',' ∉ q.direction.name.toList := by cases q.direction <;> decide
  have type : ',' ∉ q.type.name.toList := by cases q.type <;> decide
  have own : ',' ∉ q.name.toList := fun member => name _ member rfl
  cases empty : q.name.isEmpty <;> simp [Param.text, Param.keyText, empty, direction, type, own]

theorem Listed.behind (listed : Listed inside ps) : Listed (' ' :: inside) ps := by
  have piece {cs : List Char} {ps : List Param} (piece : Piece cs ps) : Piece (' ' :: cs) ps := by
    cases piece with
    | nothing blank => exact .nothing (.cons rfl blank)
    | param value words spelled => exact .param value (words.behind rfl) spelled
  have fresh {cs : List Char} (fresh : ',' ∉ cs) : ',' ∉ ' ' :: cs := by simp [fresh]
  cases listed with
  | last none first => exact .last (fresh none) (piece first)
  | comma none first more => exact .comma (fresh none) (piece first) more

theorem listedText (each : ∀ q ∈ ps, q.Printable) :
    Listed (", ".intercalate (ps.map Param.text)).toList ps := by
  have fresh {q : Param} (member : q ∈ ps) : ',' ∉ q.text.toList :=
    Param.textFresh fun c letter => ((each q member).name c letter).2
  have piece {q : Param} (member : q ∈ ps) : Piece q.text.toList [q] :=
    .param (each q member).value (Param.textWords fun c letter => ((each q member).name c letter).1)
      .full
  induction ps with
  | nil => exact .last nofun (.nothing nofun)
  | cons q rest ih =>
    cases rest with
    | nil =>
      rw [List.map_singleton, String.intercalate_singleton]
      exact .last (fresh List.mem_cons_self) (piece List.mem_cons_self)
    | cons q' rest =>
      have later : Listed (", ".intercalate ((q' :: rest).map Param.text)).toList (q' :: rest) :=
        ih (fun q member => each q (List.mem_cons_of_mem _ member))
          (fun member => fresh (List.mem_cons_of_mem _ member))
          (fun member => piece (List.mem_cons_of_mem _ member))
      have shape : (", ".intercalate ((q :: q' :: rest).map Param.text)).toList = q.text.toList ++
          ',' :: ' ' :: (", ".intercalate ((q' :: rest).map Param.text)).toList := by
        simp [String.intercalate_cons_cons]
      rw [shape]
      exact .comma (fresh List.mem_cons_self) (piece List.mem_cons_self) later.behind

end Printing

namespace Prototype

inductive Spelled (p : Prototype) : List Char → Prop where
  | mk {head inside : List Char} (plain : '(' ∉ head)
      (words : Text.Words head [p.returns.name.toList, p.name.toList])
      (params : Listed inside p.params) : p.Spelled (head ++ '(' :: (inside ++ [')']))

variable {p : Prototype} {text : String} {cs head inside tail : List Char}

theorem parseCharsIff : parseChars cs = .ok p ↔ ∃ head inside,
    Text.parenthesised cs = some (head, inside) ∧
      Text.Words head [p.returns.name.toList, p.name.toList] ∧ Listed inside p.params := by
  constructor
  · intro parsed
    unfold parseChars at parsed
    split at parsed
    · cases parsed
    · rename_i head inside cut
      split at parsed
      · rename_i type name heads
        have words : Text.Words head [type, name] := Text.wordsIff.mp heads
        split at parsed
        · cases parsed
        · rename_i returns found
          obtain ⟨params, listed, is⟩ := boundIff.mp parsed
          cases is
          have typed := (ShaderTy.ofTextIff (words.each List.mem_cons_self).1).mp found
          refine ⟨head, inside, cut, ?_, listedIff.mp listed⟩
          rwa [String.toList_ofList, ← typed]
      · cases parsed
  · rintro ⟨head, inside, cut, words, listed⟩
    have found : ShaderTy.ofText? p.returns.name.toList = some p.returns :=
      (ShaderTy.ofTextIff p.returns.nameWord).mpr rfl
    simp only [parseChars, cut, words.given, found]
    refine boundIff.mpr ⟨p.params, listedIff.mpr listed, ?_⟩
    rw [String.ofList_toList]

theorem parseIff : parse text = .ok p ↔
    ∃ read unread, text.toList = read ++ unread ∧ p.Spelled read ∧ ')' ∉ unread := by
  rw [parse, parseCharsIff]
  constructor
  · rintro ⟨head, inside, cut, words, listed⟩
    obtain ⟨tail, whole, plain, last⟩ := Text.parenthesisedIff.mp cut
    obtain ⟨front, back, first, after, outer⟩ := Text.trimSplit text.toList
    have noOpening : '(' ∉ front ++ head := fun member =>
      (List.mem_append.mp member).elim (first.misses rfl) plain
    have noClosing : ')' ∉ tail ++ back := fun member =>
      (List.mem_append.mp member).elim last (after.misses rfl)
    refine ⟨(front ++ head) ++ '(' :: (inside ++ [')']), tail ++ back, ?_,
      .mk noOpening (words.after first) listed, noClosing⟩
    rw [outer, whole]
    simp
  · rintro ⟨-, unread, whole, ⟨plain, words, listed⟩, last⟩
    rename_i head inside
    have shape : text.toList = head ++ '(' :: (inside ++ ')' :: unread) := by
      rw [whole]
      simp
    have noOpening : '(' ∉ head.dropWhile Text.isBlank :=
      mt (List.dropWhile_subset _ ·) plain
    have noClosing : ')' ∉ (unread.reverse.dropWhile Text.isBlank).reverse := fun member =>
      last (List.mem_reverse.mp (List.dropWhile_subset _ (List.mem_reverse.mp member)))
    have dropped := (Text.wordsDrop head).trans words.given
    refine ⟨_, inside, ?_, Text.wordsIff.mp dropped, listed⟩
    rw [shape, Text.trimAround rfl rfl]
    exact Text.parenthesisedAt noOpening noClosing

structure Printable (p : Prototype) : Prop where
  some : p.name ≠ ""
  name : ∀ c ∈ p.name.toList, Text.isBlank c = false ∧ c ≠ '('
  params : ∀ q ∈ p.params, q.Printable

theorem Spelled.printable (spelled : p.Spelled cs) : p.Printable := by
  obtain ⟨plain, words, listed⟩ := spelled
  obtain ⟨word, within⟩ := words.each (List.mem_cons_of_mem _ List.mem_cons_self)
  refine ⟨fun none => word.some (none ▸ rfl), fun c letter => ?_,
    fun q member => listed.each member⟩
  exact ⟨word.solid c letter, fun opening => plain (opening ▸ within letter)⟩

theorem Printable.spelled (printable : p.Printable) : p.Spelled p.text.toList := by
  have shape : p.text.toList = (p.returns.name.toList ++ ' ' :: p.name.toList) ++
      '(' :: ((", ".intercalate (p.params.map Param.text)).toList ++ [')']) := by
    simp [text]
  have word : Text.Word p.name.toList :=
    ⟨by simpa using printable.some, fun c letter => (printable.name c letter).1⟩
  have returns : '(' ∉ p.returns.name.toList := by cases p.returns <;> decide
  have own : '(' ∉ p.name.toList := fun member => (printable.name _ member).2 rfl
  rw [shape]
  refine .mk ?_ (.spaced p.returns.nameWord (.single word)) (listedText printable.params)
  simp [returns, own]

theorem printableIff : p.Printable ↔ parse p.text = .ok p := by
  refine ⟨fun printable => parseIff.mpr ⟨_, [], (List.append_nil _).symm, printable.spelled, nofun⟩,
    fun parsed => ?_⟩
  obtain ⟨read, unread, -, spelled, -⟩ := parseIff.mp parsed
  exact spelled.printable

/-- What has been read is read again from its print, and so is every prototype whose names do not
get in the way of what is printed around them. -/
theorem printingInverts (p : Prototype) :
    (∀ text, parse text = .ok p → parse p.text = .ok p) ∧ (p.Printable ↔ parse p.text = .ok p) := by
  refine ⟨fun text parsed => ?_, printableIff⟩
  obtain ⟨read, unread, -, spelled, -⟩ := parseIff.mp parsed
  exact printableIff.mp spelled.printable

def crowded : Prototype :=
  ⟨"f)", .void, [⟨"in", .float, .input⟩, ⟨"", .vec2, .output⟩, ⟨"x)", .bool, .both⟩]⟩

theorem crowdedInverts :
    parse " void f) (float in,, out vec2 ,inout  bool x)) " = .ok crowded ∧ crowded.Printable ∧
    crowded.text = "void f)(in float in, out vec2, inout bool x))" ∧
    parse crowded.text = .ok crowded := by
  have parsed : parse " void f) (float in,, out vec2 ,inout  bool x)) " = .ok crowded := by
    decide +kernel
  obtain ⟨again, printable⟩ := printingInverts crowded
  exact ⟨parsed, printable.mpr (again _ parsed), by decide +kernel, again _ parsed⟩

def behindList (text : String) : List Char :=
  (text.toList.reverse.takeWhile (· != ')')).reverse

def SpelledBy (p : Prototype) (text : String) : Prop :=
  ∃ read back, text.toList = read ++ back ∧ p.Spelled read ∧ Text.Blank back

theorem behindIs {read unread : List Char} (whole : text.toList = read ++ unread)
    (spelled : p.Spelled read) (last : ')' ∉ unread) : behindList text = unread := by
  obtain ⟨-, -, -⟩ := spelled
  rename_i head inside
  have flipped : text.toList.reverse =
      unread.reverse ++ ')' :: (head ++ '(' :: inside).reverse := by
    rw [whole]
    simp
  have passed : ∀ c ∈ unread.reverse, (c != ')') = true := fun c member => by
    rw [bne, Text.others last c (List.mem_reverse.mp member)]
    rfl
  rw [behindList, flipped, List.takeWhile_append_of_pos passed]
  simp

/-- The reader takes what is spelled up to the last closing parenthesis, whatever stands behind it.
It has looked at the whole text exactly if only blanks do. -/
theorem readsUpToList (p : Prototype) (text : String) :
    (parse text = .ok p ↔
      ∃ read unread, text.toList = read ++ unread ∧ p.Spelled read ∧ ')' ∉ unread) ∧
    (p.SpelledBy text ↔ parse text = .ok p ∧ Text.Blank (behindList text)) := by
  refine ⟨parseIff, ?_⟩
  constructor
  · rintro ⟨read, back, whole, spelled, blank⟩
    have last : ')' ∉ back := blank.misses rfl
    rw [behindIs whole spelled last]
    exact ⟨parseIff.mpr ⟨read, back, whole, spelled, last⟩, blank⟩
  · rintro ⟨parsed, blank⟩
    obtain ⟨read, unread, whole, spelled, last⟩ := parseIff.mp parsed
    rw [behindIs whole spelled last] at blank
    exact ⟨read, unread, whole, spelled, blank⟩

theorem wordUnread :
    parse "float f(float x) const" = .ok ⟨"f", .float, [⟨"x", .float, .input⟩]⟩ ∧
    ¬ SpelledBy ⟨"f", .float, [⟨"x", .float, .input⟩]⟩ "float f(float x) const" := by
  refine ⟨by decide +kernel, fun whole => ?_⟩
  obtain ⟨-, blank⟩ := (readsUpToList _ _).2.mp whole
  have letter : 'c' ∈ behindList "float f(float x) const" := by decide +kernel
  exact blank.misses rfl letter

end Prototype
end FixedIL.Builtin
