import FixedIL.Proofs.CopiedText
import FixedIL.Proofs.ReadableText

/-!
What a printed line is made of: values and types are words, perhaps behind a sign, and lists of
them stand between delimiters. Signatures, parameters and frame slots are put together from these.
-/
namespace FixedIL.Printer

section Values

theorem plainDecimal (n : Nat) : Plain n.repr := by
  intro c member
  rw [Nat.toList_repr] at member
  have digit := Nat.isDigit_of_mem_toDigits (by decide) (by decide) member
  simp [isWordChar, Char.isAlphanum, digit]

theorem decimalNonempty (n : Nat) : n.repr ≠ "" := by
  intro empty
  have length : 0 < (Nat.toDigits 10 n).length := Nat.length_toDigits_pos
  rw [← Nat.toList_repr, empty] at length
  cases length

theorem atomTemp (id : TempId) : Atom (Value.tempText id) :=
  .signed '%' id.toNat.repr (.inl rfl) (String.toList_append ..) (plainDecimal _)

theorem atomInt (n : Int) : Atom (toString n) := by
  cases n with
  | ofNat n => exact .word (plainDecimal n) (decimalNonempty n)
  | negSucc n =>
    exact .signed '-' (n + 1).repr (.inr rfl) (String.toList_append ..) (plainDecimal _)

theorem atomValue {v : Value} (literal : v.isFloat = false) : Atom v.text := by
  cases v with
  | temp id => exact atomTemp id
  | int n => exact atomInt _
  | bool b => cases b <;> exact .word (by decide) (by decide)
  | float x => cases literal
  | null => exact .word (by decide) (by decide)

theorem tempTextInjective {id id' : TempId} (same : Value.tempText id = Value.tempText id') :
    id = id' :=
  UInt32.toNat_inj.mp (Copying.decimalInjective ((String.append_right_inj "%").mp same))

theorem intTextInjective {m n : Int} (same : toString m = toString n) : m = n := by
  have signed (k l : Nat) : k.repr ≠ "-" ++ l.repr := by
    intro same
    have sign := plainDecimal k '-' (by rw [same, String.toList_append]; exact List.mem_cons_self)
    exact absurd sign (by decide)
  cases m with
  | ofNat k =>
    cases n with
    | ofNat l => exact congrArg Int.ofNat (Copying.decimalInjective same)
    | negSucc l => exact absurd same (signed k (l + 1))
  | negSucc k =>
    cases n with
    | ofNat l => exact absurd same.symm (signed l (k + 1))
    | negSucc l =>
      have digits := (String.append_right_inj "-").mp same
      exact congrArg Int.negSucc (Nat.succ.inj (Copying.decimalInjective digits))

def sortOf (c : Char) : Nat :=
  if c = '%' then 0 else if c = 't' ∨ c = 'f' then 1 else if c = 'n' then 2 else 3

def valueSort : Value → Nat
  | .temp _ => 0
  | .bool _ => 1
  | .null => 2
  | .int _ | .float _ => 3

theorem digitSort {c : Char} (digit : c.isDigit = true) : sortOf c = 3 := by
  have apart {d : Char} (letter : d.isDigit = false) : c ≠ d := by
    rintro rfl
    rw [letter] at digit
    cases digit
  rw [sortOf, if_neg (apart (by decide)), if_neg, if_neg (apart (by decide))]
  exact fun truth => truth.elim (apart (by decide)) (apart (by decide))

theorem decimalLeads (n : Nat) : Leads (sortOf · = 3) n.repr.toList := by
  rw [Nat.toList_repr]
  cases digits : Nat.toDigits 10 n with
  | nil => exact absurd digits (List.ne_nil_of_length_pos Nat.length_toDigits_pos)
  | cons c rest =>
    have member : c ∈ Nat.toDigits 10 n := by rw [digits]; exact List.mem_cons_self
    exact ⟨c, rest, rfl, digitSort (Nat.isDigit_of_mem_toDigits (by decide) (by decide) member)⟩

theorem valueLeads {v : Value} (literal : v.isFloat = false) :
    Leads (sortOf · = valueSort v) v.text.toList := by
  cases v with
  | temp id => exact ⟨'%', _, String.toList_append .., rfl⟩
  | int n =>
    rw [Value.text]
    cases n.toInt with
    | ofNat n => exact decimalLeads n
    | negSucc n => exact ⟨'-', _, String.toList_append .., rfl⟩
  | bool b => cases b <;> exact ⟨_, _, rfl, rfl⟩
  | float x => cases literal
  | null => exact ⟨_, _, rfl, rfl⟩

theorem valueTextInjective {v w : Value} (literal : v.isFloat = false)
    (literal' : w.isFloat = false) (same : v.text = w.text) : v = w := by
  have sorts : valueSort v = valueSort w := by
    obtain ⟨c, rest, chars, sort⟩ := valueLeads literal
    obtain ⟨c', rest', chars', sort'⟩ := valueLeads literal'
    rw [same, chars'] at chars
    cases chars
    exact sort.symm.trans sort'
  cases v with
  | temp id =>
    cases w with
    | temp id' => exact congrArg Value.temp (tempTextInjective same)
    | int | bool | float | null => cases sorts
  | int n =>
    cases w with
    | int n' => exact congrArg Value.int (Int64.toInt_inj.mp (intTextInjective same))
    | float => cases literal'
    | temp | bool | null => cases sorts
  | bool b =>
    cases w with
    | bool b' => cases b <;> cases b' <;> first | rfl | exact absurd same (by decide)
    | temp | int | float | null => cases sorts
  | float x => cases literal
  | null =>
    cases w with
    | null => rfl
    | temp | int | bool | float => cases sorts

end Values

section Items

theorem settlesValue {v w : Value} (literal : v.isFloat = false) (literal' : w.isFloat = false) :
    Settles (Leads Parts) v.text w.text (v = w) :=
  ((settlesAtom (atomValue literal) (atomValue literal')).mono
    (valueTextInjective literal literal')).parted

theorem settlesValues {vs ws : List Value} (literals : ∀ v ∈ vs, v.isFloat = false)
    (literals' : ∀ w ∈ ws, w.isFloat = false) :
    Settles (Leads Closes) (values vs) (values ws) (vs = ws) :=
  settlesAtoms (fun v member => atomValue (literals v member))
    (fun w among => atomValue (literals' w among))
    fun v member w among => valueTextInjective (literals v member) (literals' w among)

theorem settlesTemp (id id' : TempId) :
    Settles (Leads Apart) (Value.tempText id) (Value.tempText id') (id = id') :=
  (settlesAtom (atomTemp id) (atomTemp id')).mono tempTextInjective

theorem settlesTemps (ids ids' : List TempId) :
    Settles (Leads Closes) (commaList (ids.map Value.tempText))
      (commaList (ids'.map Value.tempText)) (ids = ids') :=
  settlesAtoms (fun id _ => atomTemp id) (fun id _ => atomTemp id) fun _ _ _ _ => tempTextInjective

theorem plainType (t : Ty) : Plain t.name := by cases t <;> decide

theorem atomType (t : Ty) : Atom t.name := .word (plainType t) (by cases t <;> decide)

theorem settlesType (t u : Ty) : Settles (Leads Apart) t.name u.name (t = u) :=
  (settlesWord (plainType t) (plainType u)).mono Ty.nameInjective

theorem settlesTypes (ts us : List Ty) :
    Settles (Leads Closes) (commaList (ts.map Ty.name)) (commaList (us.map Ty.name)) (ts = us) :=
  settlesAtoms (fun t _ => atomType t) (fun t _ => atomType t) fun _ _ _ _ => Ty.nameInjective

theorem hiddenMarked (t u : Ty) (s r : List Char) (parts : Leads Parts r) :
    ("sret " ++ t.name).toList ++ s ≠ u.name.toList ++ r := by
  intro same
  rw [String.toList_append, List.append_assoc] at same
  have word := (settlesWord (x := "sret") (by decide) (plainType u) (' ' :: (t.name.toList ++ s)) r
    ⟨' ', _, rfl, by decide⟩ (parts.mono fun _ => partsApart) same).1
  cases u <;> exact absurd word (by decide)

theorem settlesSlot (p q : Slot) : Settles (Leads Parts) p.text q.text (p = q) := by
  obtain ⟨t, purpose⟩ := p
  obtain ⟨u, purpose'⟩ := q
  have types := (settlesType t u).parted
  cases purpose <;> cases purpose' <;>
    simp only [Slot.text, reduceCtorEq, if_true, if_false, String.empty_append]
  · exact types.mono fun same => by rw [same]
  · exact settlesNever fun s r parts _ => (hiddenMarked u t r s parts).symm
  · exact settlesNever fun s r _ parts => hiddenMarked t u s r parts
  · exact (types.behind "sret ").mono fun same => by rw [same]

theorem slotOpens (p : Slot) : Leads Opens p.text.toList := by
  rw [Slot.text, String.toList_append]
  split
  · exact ⟨'s', _, rfl, .inr (.inr rfl)⟩
  · exact atomOpens (atomType p.type)

theorem settlesSlots (ps qs : List Slot) :
    Settles Anything (Signature.listText ps) (Signature.listText qs) (ps = qs) :=
  settlesEnclosed "(" (settlesItems (fun p _ q _ => settlesSlot p q) (fun p _ => slotOpens p)
    fun q _ => slotOpens q)

theorem settlesSignature (s t : Signature) : Settles Anything s.text t.text (s = t) := by
  have lists := ((settlesSlots s.params t.params).closed " -> " fun _ => trivial).beyond
    (settlesSlots s.returns t.returns)
  refine lists.mono fun both => ?_
  cases s
  cases t
  exact congr (congrArg Signature.mk both.1) both.2

theorem paramOpens (t : Temp) : Leads Opens (param t).toList := by
  exact ((atomOpens (atomTemp t.id)).lead ": ").lead t.type.name

theorem settlesParam (t u : Temp) : Settles (Leads Parts) (param t) (param u) (t = u) := by
  have id := (settlesTemp t.id u.id).closed ": " fun _ => ⟨':', _, rfl, by decide⟩
  refine (id.beyond (settlesType t.type u.type).parted).mono fun both => ?_
  cases t
  cases u
  exact congr (congrArg Temp.mk both.1) both.2

theorem settlesParams (ts us : List Temp) :
    Settles (Leads Closes) (commaList (ts.map param)) (commaList (us.map param)) (ts = us) :=
  settlesItems (fun t _ u _ => settlesParam t u) (fun t _ => paramOpens t) fun u _ => paramOpens u

theorem settlesDecimal (m n : Nat) : Settles (Leads Apart) (toString m) (toString n) (m = n) :=
  (settlesWord (plainDecimal m) (plainDecimal n)).mono Copying.decimalInjective

theorem settlesFrameSlot (p q : FrameSlot × Nat) : Settles Anything (slot p) (slot q) (p = q) := by
  obtain ⟨⟨size, align⟩, k⟩ := p
  obtain ⟨⟨size', align'⟩, k'⟩ := q
  have place := ((settlesDecimal k k').behind "  slot").closed ": size "
    fun _ => ⟨':', _, rfl, by decide⟩
  have sizes := (place.beyond (settlesDecimal size.toNat size'.toNat)).closed ", align "
    fun _ => ⟨',', _, rfl, by decide⟩
  have aligns := (sizes.beyond (settlesDecimal align.toNat align'.toNat)).closed "\n"
    fun _ => ⟨'\n', _, rfl, by decide⟩
  refine aligns.mono fun ⟨⟨number, same⟩, same'⟩ => ?_
  rw [number, UInt32.toNat_inj.mp same, UInt32.toNat_inj.mp same']

end Items

end FixedIL.Printer
