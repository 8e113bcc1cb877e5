import FixedIL.Proofs.Checks
import FixedIL.Proofs.ReadableItems

/-!
An instruction that passed the checks is read back from its line. Its results stand before its
mnemonic, which tells the operation and thereby what follows; a comment and the end of the line do
not look like anything that an instruction goes on with.
-/
namespace FixedIL

def Instr.shownName (names : List String) (i : Instr) : String :=
  match i.results with
  | [] => ""
  | r :: _ => (names[r.id.toNat]?).getD ""

structure Instr.ShownAlike (i j : Instr) : Prop where
  op : i.op = j.op
  results : i.results = j.results
  operands : i.operands = j.operands
  callee : i.op = .call → i.callee = j.callee
  labels : i.op = .br ∨ i.op = .cbr → i.labels = j.labels
  branchArgs : i.op = .br ∨ i.op = .cbr → i.branchArgs = j.branchArgs
  type : i.op ≠ .call → i.op.isTerminator = false → i.type = j.type

namespace Printer

section Lines

def LineEnd (s : List Char) : Prop := (∃ r, s = '\n' :: r) ∨ ∃ r, s = ' ' :: ' ' :: r

def Gap (c : Char) : Prop := c = ' ' ∨ c = '\n'

instance (c : Char) : Decidable (Gap c) := by unfold Gap; infer_instance

theorem gapApart {c : Char} (gap : Gap c) : Apart c := partsApart (.inr (.inr gap))

theorem lineEndGap {s : List Char} (ends : LineEnd s) : Leads Gap s := by
  rcases ends with ⟨r, rfl⟩ | ⟨r, rfl⟩
  · exact ⟨'\n', r, rfl, .inr rfl⟩
  · exact ⟨' ', ' ' :: r, rfl, .inl rfl⟩

theorem lineEndCloses {s : List Char} (ends : LineEnd s) : Leads Closes s :=
  (lineEndGap ends).mono fun _ => .inr

theorem spacedShows {vs : List Value} (literals : ∀ v ∈ vs, v.isFloat = false) (some : vs ≠ []) :
    Shows LineEnd (" " ++ values vs) := by
  intro s t _ ends same
  obtain ⟨v, rest, rfl⟩ := List.exists_cons_of_ne_nil some
  obtain ⟨c, r, chars, opens⟩ :=
    commaListLeads (atomOpens (atomValue (literals v List.mem_cons_self))) (rest.map Value.text)
  rw [String.toList_append, show (values (v :: rest)).toList = c :: r from chars] at same
  rcases ends with ⟨r', rfl⟩ | ⟨r', rfl⟩
  · cases same
  · cases same
    exact opensNever opens (.inr (.inr (.inl rfl)))

theorem settlesBehind {vs ws : List Value} (literals : ∀ v ∈ vs, v.isFloat = false)
    (literals' : ∀ w ∈ ws, w.isFloat = false) :
    Settles LineEnd (behind " " vs) (behind " " ws) (vs = ws) :=
  settlesUnlessEmpty
    (((settlesValues literals literals').behind " ").follow fun _ => lineEndCloses)
    (spacedShows literals) (spacedShows literals')

theorem behindGap (vs : List Value) {s : List Char} (ends : LineEnd s) :
    Leads Gap ((behind " " vs).toList ++ s) := by
  unfold behind
  split
  · exact lineEndGap ends
  · have space : Leads Gap " ".toList := ⟨' ', _, rfl, .inl rfl⟩
    exact (space.lead (values vs)).append s

def suffix (t : Ty) : String := if t = .void then "" else "." ++ t.name

theorem settlesSuffix (t u : Ty) : Settles (Leads Gap) (suffix t) (suffix u) (t = u) := by
  have dot : Leads (· = '.') ".".toList := ⟨'.', _, rfl, rfl⟩
  have dotted (t : Ty) : Shows (Leads Gap) ("." ++ t.name) :=
    (dot.lead t.name).onlyShows (by decide)
  have types := ((settlesType t u).follow fun _ (gap : Leads Gap _) =>
    gap.mono fun _ => gapApart).behind "."
  refine (settlesOptional types (fun _ => dotted t) fun _ => dotted u).mono ?_
  rintro (⟨rfl, rfl⟩ | same)
  · rfl
  · exact same

structure Target where
  label : String
  args : List Value

def Target.text (t : Target) : String :=
  t.label ++ if t.args.isEmpty then "" else "(" ++ values t.args ++ ")"

structure Target.Legible (t : Target) : Prop where
  label : Plain t.label
  args : ∀ v ∈ t.args, v.isFloat = false

theorem settlesTarget {t u : Target} (legible : t.Legible) (legible' : u.Legible) :
    Settles (Leads Parts) t.text u.text (t = u) := by
  have args : Settles (Leads Parts) _ _ (t.args = u.args) :=
    settlesBracketed (settlesValues legible.args legible'.args) (by decide)
  have both := (settlesWord legible.label legible'.label).append (fun _ => args)
    (fun s rest => bracketedLeads _ _ (rest.mono fun _ => partsApart) (by decide))
    fun s rest => bracketedLeads _ _ (rest.mono fun _ => partsApart) (by decide)
  refine both.mono fun ⟨labels, args⟩ => ?_
  cases t
  cases u
  exact congr (congrArg Target.mk labels) args

def returned (ts : List Ty) : String :=
  if ts.isEmpty then "" else " -> (" ++ commaList (ts.map Ty.name) ++ ")"

theorem settlesReturned (ts us : List Ty) :
    Settles LineEnd (returned ts) (returned us) (ts = us) := by
  have arrow (text : String) : Shows LineEnd (" -> (" ++ text ++ ")") := by
    intro s t _ ends
    rw [String.append_assoc, String.toList_append]
    rcases ends with ⟨r, rfl⟩ | ⟨r, rfl⟩ <;> exact nofun
  have types := settlesEnclosed " -> (" (settlesTypes ts us)
  exact settlesUnlessEmpty (types.follow fun _ _ => trivial) (fun _ => arrow _) fun _ => arrow _

def defined (ids : List TempId) : String :=
  if ids.isEmpty then "" else commaList (ids.map Value.tempText) ++ " = "

theorem definedShows {ids : List TempId} (some : ids ≠ []) :
    Shows (Leads Letter) (commaList (ids.map Value.tempText) ++ " = ") := by
  obtain ⟨id, rest, rfl⟩ := List.exists_cons_of_ne_nil some
  have sign : Leads (· = '%') (Value.tempText id).toList := ⟨'%', _, String.toList_append .., rfl⟩
  exact ((commaListLeads sign (rest.map Value.tempText)).lead " = ").onlyShows (by decide)

theorem settlesDefined (ids ids' : List TempId) :
    Settles (Leads Letter) (defined ids) (defined ids') (ids = ids') :=
  settlesUnlessEmpty (((settlesTemps ids ids').closed " = "
    fun _ => ⟨' ', _, rfl, .inr (.inl rfl)⟩).follow fun _ _ => trivial) definedShows definedShows

end Lines

section Instructions

theorem plainMnemonic (op : Opcode) : Plain op.mnemonic := by
  have all : ∀ op ∈ Opcode.all, Plain op.mnemonic := by decide +kernel
  exact all op (Opcode.memAll op)

theorem mnemonicNonempty (op : Opcode) : op.mnemonic ≠ "" := by
  have all : ∀ op ∈ Opcode.all, op.mnemonic ≠ "" := by decide +kernel
  exact all op (Opcode.memAll op)

theorem mnemonicInjective {op op' : Opcode} (same : op.mnemonic = op'.mnemonic) : op = op' := by
  have all : ∀ op ∈ Opcode.all, Opcode.ofMnemonic? op.mnemonic = some op := by decide +kernel
  have known := all op (Opcode.memAll op)
  rw [same, all op' (Opcode.memAll op')] at known
  exact (Option.some.inj known).symm

def details (i : Instr) : String :=
  match i.op with
  | .call =>
    " @" ++ i.callee ++ "(" ++ values i.operands ++ ")" ++ returned (i.results.map Temp.type)
  | .br => " " ++ target i 0
  | .cbr => " " ++ values (i.operands.take 1) ++ ", " ++ target i 0 ++ ", " ++ target i 1
  | .ret => behind " " i.operands
  | _ => suffix i.type ++ behind " " i.operands

theorem instrSplit (i : Instr) :
    instr i = defined (i.results.map Temp.id) ++ (i.op.mnemonic ++ details i) := by
  have defines : defines i = defined (i.results.map Temp.id) := by
    rw [Printer.defines, defined, List.isEmpty_map, List.map_map]
    rfl
  have body : body i = i.op.mnemonic ++ details i := by
    unfold Printer.body details
    cases i.op <;>
      simp [Opcode.mnemonic, returned, suffix, ← String.append_assoc, Function.comp_def]
  rw [instr, defines, body]

variable {p q : Program} {f g : Function} {i j : Instr}

theorem resultTypes (sound : WellFormed.instr? p f f.temps i = none) (call : i.op ≠ .call) :
    i.results.map Temp.type = if i.op.results = .one then [i.type] else [] := by
  cases arity : i.op.results with
  | none => rw [WellFormed.noResult sound arity]; rfl
  | one =>
    obtain ⟨r, results, type⟩ := WellFormed.oneResult sound arity
    rw [results, if_pos rfl, List.map_singleton, type]
  | variadic =>
    have only : ∀ op ∈ Opcode.all, op.results = .variadic → op = .call := by decide
    exact absurd (only i.op (Opcode.memAll _) arity) call

theorem resultsSame {rs rs' : List Temp} (ids : rs.map Temp.id = rs'.map Temp.id)
    (types : rs.map Temp.type = rs'.map Temp.type) : rs = rs' := by
  have whole (ts : List Temp) :
      ts = ((ts.map Temp.id).zip (ts.map Temp.type)).map fun t => ⟨t.1, t.2⟩ := by
    rw [List.zip_map', List.map_map]
    exact (List.map_id _).symm
  rw [whole rs, whole rs', ids, types]

structure Legible (i : Instr) : Prop where
  operands : ∀ v ∈ i.operands, v.isFloat = false
  branchArgs : ∀ args ∈ i.branchArgs, ∀ v ∈ args, v.isFloat = false
  callee : i.op = .call → Plain i.callee
  labels : i.op = .br ∨ i.op = .cbr → ∀ label ∈ i.labels, Plain label

theorem targetShown {t : Target} {k : Nat} (label : i.labels[k]? = some t.label)
    (args : i.branchArgs[k]? = some t.args) : target i k = t.text := by
  rw [target, label, args]
  rfl

theorem brShape (sound : WellFormed.instr? p f f.temps i = none) (legible : Legible i)
    (op : i.op = .br) : i.results = [] ∧ i.operands = [] ∧
      ∃ t : Target, t.Legible ∧ i.labels = [t.label] ∧ i.branchArgs = [t.args] ∧
        details i = " " ++ t.text := by
  have operands := WellFormed.operandCount sound (by rw [op]; rfl)
  obtain ⟨labels, branchArgs, -⟩ := WellFormed.branchTargets sound (.inl op)
  rw [op] at operands labels
  rw [labels] at branchArgs
  obtain ⟨label, one⟩ := List.length_eq_one_iff.mp labels
  obtain ⟨args, list⟩ := List.length_eq_one_iff.mp branchArgs
  refine ⟨WellFormed.noResult sound (by rw [op]; rfl), List.length_eq_zero_iff.mp operands,
    ⟨label, args⟩, ⟨?_, ?_⟩, one, list, ?_⟩
  · exact legible.labels (.inl op) label (by rw [one]; exact List.mem_cons_self)
  · exact legible.branchArgs args (by rw [list]; exact List.mem_cons_self)
  · rw [← targetShown (i := i) (k := 0) (by rw [one]; rfl) (by rw [list]; rfl), details, op]

theorem cbrShape (sound : WellFormed.instr? p f f.temps i = none) (legible : Legible i)
    (op : i.op = .cbr) : i.results = [] ∧
      ∃ (c : Value) (t u : Target), c.isFloat = false ∧ t.Legible ∧ u.Legible ∧ i.operands = [c] ∧
        i.labels = [t.label, u.label] ∧ i.branchArgs = [t.args, u.args] ∧
        details i = " " ++ c.text ++ ", " ++ t.text ++ ", " ++ u.text := by
  have operands := WellFormed.operandCount sound (by rw [op]; rfl)
  obtain ⟨labels, branchArgs, -⟩ := WellFormed.branchTargets sound (.inr op)
  rw [op] at operands labels
  rw [labels] at branchArgs
  obtain ⟨c, one⟩ := List.length_eq_one_iff.mp operands
  obtain ⟨label, label', two⟩ := List.length_eq_two.mp labels
  obtain ⟨args, args', lists⟩ := List.length_eq_two.mp branchArgs
  have words := legible.labels (.inr op)
  have literals := legible.branchArgs
  rw [two, List.forall_mem_cons, List.forall_mem_singleton] at words
  rw [lists, List.forall_mem_cons, List.forall_mem_singleton] at literals
  refine ⟨WellFormed.noResult sound (by rw [op]; rfl), c, ⟨label, args⟩, ⟨label', args'⟩, ?_,
    ⟨words.1, literals.1⟩, ⟨words.2, literals.2⟩, one, two, lists, ?_⟩
  · exact legible.operands c (by rw [one]; exact List.mem_cons_self)
  · have condition : values (i.operands.take 1) = c.text := by
      rw [one]
      exact String.intercalate_singleton (s := ", ") (t := c.text)
    rw [← targetShown (i := i) (k := 0) (by rw [two]; rfl) (by rw [lists]; rfl),
      ← targetShown (i := i) (k := 1) (by rw [two]; rfl) (by rw [lists]; rfl), details, op,
      ← condition]

theorem endsAgree (op : i.op = j.op) (ends : i.op.isTerminator = true)
    (results : i.results = j.results) (operands : i.operands = j.operands)
    (labels : i.op = .br ∨ i.op = .cbr → i.labels = j.labels)
    (branchArgs : i.op = .br ∨ i.op = .cbr → i.branchArgs = j.branchArgs) : i.ShownAlike j := by
  refine ⟨op, results, operands, fun call => ?_, labels, branchArgs, fun _ plain => ?_⟩
  · rw [call] at ends
    cases ends
  · rw [plain] at ends
    cases ends

theorem detailsApart (i : Instr) {s : List Char} (ends : LineEnd s) :
    Leads Apart ((details i).toList ++ s) := by
  have values := (behindGap i.operands ends).mono fun _ => gapApart
  unfold details
  split
  · simp only [String.toList_append]
    exact ⟨' ', _, rfl, by decide⟩
  · simp only [String.toList_append]
    exact ⟨' ', _, rfl, by decide⟩
  · simp only [String.toList_append]
    exact ⟨' ', _, rfl, by decide⟩
  · exact values
  · rw [suffix]
    split
    · rwa [String.empty_append]
    · simp only [String.toList_append]
      exact ⟨'.', _, rfl, by decide⟩

section Details

variable (legible : Legible i) (legible' : Legible j)

include legible legible'

theorem settlesCall (op : i.op = .call) (op' : j.op = .call)
    (ids : i.results.map Temp.id = j.results.map Temp.id) :
    Settles LineEnd (details i) (details j) (i.ShownAlike j) := by
  have callee := ((settlesWord (legible.callee op) (legible'.callee op')).behind " @").closed "("
    fun _ => ⟨'(', _, rfl, by decide⟩
  have operands := (callee.beyond (settlesValues legible.operands legible'.operands)).closed ")"
    fun _ => ⟨')', _, rfl, .inl rfl⟩
  have whole := operands.beyond
    (settlesReturned (i.results.map Temp.type) (j.results.map Temp.type))
  have shown {i : Instr} (op : i.op = .call) : details i = " @" ++ i.callee ++ "(" ++
      values i.operands ++ ")" ++ returned (i.results.map Temp.type) := by rw [details, op]
  rw [shown op, shown op']
  have branches : ¬ (i.op = .br ∨ i.op = .cbr) := by
    rw [op]
    decide
  exact whole.mono fun ⟨⟨callees, values⟩, types⟩ =>
    ⟨op.trans op'.symm, resultsSame ids types, values, fun _ => callees,
      fun branch => absurd branch branches, fun branch => absurd branch branches,
      fun other => absurd op other⟩

variable (sound : WellFormed.instr? p f f.temps i = none)
  (sound' : WellFormed.instr? q g g.temps j = none)

include sound sound'

theorem settlesBr (op : i.op = .br) (op' : j.op = .br) :
    Settles LineEnd (details i) (details j) (i.ShownAlike j) := by
  obtain ⟨results, operands, t, words, labels, lists, shown⟩ := brShape sound legible op
  obtain ⟨results', operands', u, words', labels', lists', shown'⟩ := brShape sound' legible' op'
  rw [shown, shown']
  refine (((settlesTarget words words').behind " ").follow fun _ ends =>
    (lineEndCloses ends).mono fun _ => .inr).mono ?_
  rintro rfl
  exact endsAgree (op.trans op'.symm) (by rw [op]; rfl) (results.trans results'.symm)
    (operands.trans operands'.symm) (fun _ => labels.trans labels'.symm)
    fun _ => lists.trans lists'.symm

theorem settlesCbr (op : i.op = .cbr) (op' : j.op = .cbr) :
    Settles LineEnd (details i) (details j) (i.ShownAlike j) := by
  obtain ⟨results, c, t, u, literal, words, others, operands, labels, lists, shown⟩ :=
    cbrShape sound legible op
  obtain ⟨results', c', t', u', literal', words', others', operands', labels', lists', shown'⟩ :=
    cbrShape sound' legible' op'
  rw [shown, shown']
  have condition := ((settlesValue literal literal').behind " ").closed ", "
    fun _ => ⟨',', _, rfl, .inl rfl⟩
  have first := (condition.beyond (settlesTarget words words')).closed ", "
    fun _ => ⟨',', _, rfl, .inl rfl⟩
  refine ((first.beyond (settlesTarget others others')).follow fun _ ends =>
    (lineEndCloses ends).mono fun _ => .inr).mono ?_
  rintro ⟨⟨rfl, rfl⟩, rfl⟩
  exact endsAgree (op.trans op'.symm) (by rw [op]; rfl) (results.trans results'.symm)
    (operands.trans operands'.symm) (fun _ => labels.trans labels'.symm)
    fun _ => lists.trans lists'.symm

theorem settlesRet (op : i.op = .ret) (op' : j.op = .ret) :
    Settles LineEnd (details i) (details j) (i.ShownAlike j) := by
  have shown {i : Instr} (op : i.op = .ret) : details i = behind " " i.operands := by
    rw [details, op]
  have results := WellFormed.noResult sound (by rw [op]; rfl)
  have results' := WellFormed.noResult sound' (by rw [op']; rfl)
  rw [shown op, shown op']
  have branches : ¬ (i.op = .br ∨ i.op = .cbr) := by
    rw [op]
    decide
  exact (settlesBehind legible.operands legible'.operands).mono fun operands =>
    endsAgree (op.trans op'.symm) (by rw [op]; rfl) (results.trans results'.symm) operands
      (fun branch => absurd branch branches) fun branch => absurd branch branches

theorem settlesPlain (op : i.op = j.op) (call : i.op ≠ .call) (plain : i.op.isTerminator = false)
    (ids : i.results.map Temp.id = j.results.map Temp.id) :
    Settles LineEnd (details i) (details j) (i.ShownAlike j) := by
  have shown {i : Instr} (call : i.op ≠ .call) (plain : i.op.isTerminator = false) :
      details i = suffix i.type ++ behind " " i.operands := by
    unfold details
    split <;> rename_i op
    · exact absurd op call
    · exact absurd (op ▸ plain) (by decide)
    · exact absurd (op ▸ plain) (by decide)
    · exact absurd (op ▸ plain) (by decide)
    · rfl
  have branches : ¬ (i.op = .br ∨ i.op = .cbr) := by
    rintro (branch | branch) <;> exact absurd (branch ▸ plain) (by decide)
  rw [shown call plain, shown (op ▸ call) (op ▸ plain)]
  refine ((settlesSuffix i.type j.type).append
    (fun _ => settlesBehind legible.operands legible'.operands)
    (fun s => behindGap _) fun s => behindGap _).mono fun ⟨types, operands⟩ => ?_
  -- The types of results are not shown here, but the checks make them the type of the instruction.
  have results := resultTypes sound call
  rw [op, types, ← resultTypes sound' (op ▸ call)] at results
  exact ⟨op, resultsSame ids results, operands, fun is => absurd is call,
    fun branch => absurd branch branches, fun branch => absurd branch branches, fun _ _ => types⟩

theorem settlesDetails (op : i.op = j.op) (ids : i.results.map Temp.id = j.results.map Temp.id) :
    Settles LineEnd (details i) (details j) (i.ShownAlike j) := by
  have kinds : ∀ op ∈ Opcode.all, op = .call ∨ op = .br ∨ op = .cbr ∨ op = .ret ∨
      op ≠ .call ∧ op.isTerminator = false := by decide
  rcases kinds i.op (Opcode.memAll _) with is | is | is | is | ⟨call, plain⟩
  · exact settlesCall legible legible' is (op ▸ is) ids
  · exact settlesBr legible legible' sound sound' is (op ▸ is)
  · exact settlesCbr legible legible' sound sound' is (op ▸ is)
  · exact settlesRet legible legible' sound sound' is (op ▸ is)
  · exact settlesPlain legible legible' sound sound' op call plain ids

theorem settlesInstr : Settles LineEnd (instr i) (instr j) (i.ShownAlike j) := by
  have letter (i : Instr) (s : List Char) :
      Leads Letter ((i.op.mnemonic ++ details i).toList ++ s) :=
    ((wordLeads (plainMnemonic i.op) (mnemonicNonempty i.op)).lead (details i)).append s
  have body (ids : i.results.map Temp.id = j.results.map Temp.id) :=
    (settlesWord (plainMnemonic i.op) (plainMnemonic j.op)).append
      (fun same => settlesDetails legible legible' sound sound' (mnemonicInjective same) ids)
      (fun s ends => detailsApart i ends) fun s ends => detailsApart j ends
  -- The ids of the results go on into the details: a call shows the types of its results last.
  rw [instrSplit, instrSplit]
  exact ((settlesDefined _ _).append body (fun s _ => letter i s) fun s _ => letter j s).mono
    fun known => known.2.2

end Details

end Instructions

end Printer
end FixedIL
