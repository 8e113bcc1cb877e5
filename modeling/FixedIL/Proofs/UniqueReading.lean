import FixedIL.Proofs.ReadableCode

/-!
Functions that are printed the same are the same. Code is indented, the label of a block is not,
and the last brace is neither a label nor what stands behind an empty one, so that the lines of a
function are told apart; what agrees in all that is shown is printed the same in turn.
-/
namespace FixedIL

structure Block.ShownAlike (names names' : List String) (b c : Block) : Prop where
  label : b.label = c.label
  params : b.params = c.params
  instrs : List.Forall₂ (fun i j => i.ShownAlike j ∧ i.shownName names = j.shownName names')
    b.instrs c.instrs

structure Function.ShownAlike (f g : Function) : Prop where
  name : f.name = g.name
  sig : f.sig = g.sig
  slots : f.slots = g.slots
  blocks : List.Forall₂ (Block.ShownAlike f.valueNames g.valueNames) f.blocks g.blocks

structure Function.Spelled (f : Function) : Prop where
  name : Printer.Plain f.name
  labels : ∀ b ∈ f.blocks, Printer.Plain b.label
  callees : ∀ i ∈ f.code, i.op = .call → Printer.Plain i.callee
  valueNames : ∀ name ∈ f.valueNames, Printer.Plain name
  operands : ∀ i ∈ f.code, ∀ v ∈ i.operands, v.isFloat = false
  branchArgs : ∀ i ∈ f.code, ∀ args ∈ i.branchArgs, ∀ v ∈ args, v.isFloat = false

instance (f : Function) : Decidable f.Spelled :=
  decidable_of_iff (Printer.Plain f.name ∧ (∀ b ∈ f.blocks, Printer.Plain b.label) ∧
      (∀ i ∈ f.code, i.op = .call → Printer.Plain i.callee) ∧
      (∀ name ∈ f.valueNames, Printer.Plain name) ∧
      (∀ i ∈ f.code, ∀ v ∈ i.operands, v.isFloat = false) ∧
      ∀ i ∈ f.code, ∀ args ∈ i.branchArgs, ∀ v ∈ args, v.isFloat = false)
    ⟨fun ⟨name, labels, callees, names, operands, args⟩ =>
      ⟨name, labels, callees, names, operands, args⟩, fun spelled => ⟨spelled.name, spelled.labels,
      spelled.callees, spelled.valueNames, spelled.operands, spelled.branchArgs⟩⟩

namespace Printer

section Functions

variable {names names' : List String} {p q : Program} {f g : Function} {i j : Instr} {b c : Block}

theorem commentText (names : List String) (i : Instr) : nameComment names i =
    if (i.shownName names).isEmpty then "" else "  ; " ++ i.shownName names := by
  rw [nameComment, Instr.shownName]
  cases i.results <;> rfl

theorem shownPlain (plain : ∀ name ∈ names, Plain name) (i : Instr) :
    Plain (i.shownName names) := by
  unfold Instr.shownName
  split
  · exact List.forall_mem_nil _
  · rename_i r _ _
    cases known : names[r.id.toNat]? with
    | none => exact List.forall_mem_nil _
    | some name => exact plain name (List.mem_of_getElem? known)

theorem settlesComment (plain : ∀ name ∈ names, Plain name) (plain' : ∀ name ∈ names', Plain name) :
    Settles (Leads (· = '\n')) (nameComment names i) (nameComment names' j)
      (i.shownName names = j.shownName names') := by
  have space : Leads (· = ' ') "  ; ".toList := ⟨' ', _, rfl, rfl⟩
  have comment (name : String) : Shows (Leads (· = '\n')) ("  ; " ++ name) :=
    (space.lead name).onlyShows (by decide)
  have words := ((settlesWord (shownPlain plain i) (shownPlain plain' j)).follow
    fun _ (line : Leads (· = '\n') _) => line.only (by decide)).behind "  ; "
  rw [commentText, commentText]
  refine (settlesOptional words (fun _ => comment _) fun _ => comment _).mono ?_
  rintro (⟨empty, empty'⟩ | same)
  · rw [String.isEmpty_iff.mp empty, String.isEmpty_iff.mp empty']
  · exact same

theorem commentEnds (names : List String) (i : Instr) {s : List Char}
    (line : Leads (· = '\n') s) : LineEnd ((nameComment names i).toList ++ s) := by
  rw [commentText]
  split
  · obtain ⟨_, r, rfl, rfl⟩ := line
    exact .inl ⟨r, rfl⟩
  · rw [String.toList_append]
    exact .inr ⟨_, rfl⟩

def Begins (c : Char) : Prop := Letter c ∨ c = '(' ∨ c = ':'

def Outside (c : Char) : Prop := Begins c ∨ c = '\x7d'

instance (c : Char) : Decidable (Begins c) := by unfold Begins; infer_instance

instance (c : Char) : Decidable (Outside c) := by unfold Outside; infer_instance

theorem indentInside {c : Char} (indent : c = ' ') : ¬ Outside c := by
  rw [indent]
  decide

theorem beginsNever {c : Char} (begins : Begins c) : c ≠ '\x7d' := by
  rintro rfl
  exact absurd begins (by decide)

theorem settlesLine (plain : ∀ name ∈ names, Plain name) (plain' : ∀ name ∈ names', Plain name)
    (legible : Legible i) (legible' : Legible j) (sound : WellFormed.instr? p f f.temps i = none)
    (sound' : WellFormed.instr? q g g.temps j = none) :
    Settles Anything (Copying.codeLine names i) (Copying.codeLine names' j)
      (i.ShownAlike j ∧ i.shownName names = j.shownName names') :=
  (((settlesInstr legible legible' sound sound').behind "  ").append
    (fun _ => settlesComment plain plain') (fun _ => commentEnds names i)
    fun _ => commentEnds names' j).closed "\n" fun _ => ⟨'\n', _, rfl, rfl⟩

def opening (ts : List Temp) : String :=
  if ts.isEmpty then "" else "(" ++ commaList (ts.map param) ++ ")"

theorem settlesOpening (ts us : List Temp) :
    Settles (Leads (· = ':')) (opening ts) (opening us) (ts = us) :=
  settlesBracketed (settlesParams ts us) (by decide)

theorem openingLeads {C : Char → Prop} (ts : List Temp) {s : List Char}
    (colon : Leads (· = ':') s) (opens : C '(') (goes : C ':') :
    Leads C ((opening ts).toList ++ s) := bracketedLeads ts _ (colon.only goes) opens

theorem blockText (names : List String) (b : Block) : block names b =
    b.label ++ opening b.params ++ ":\n" ++ String.join (b.instrs.map (Copying.codeLine names)) :=
  rfl

theorem lineLeads (names : List String) (i : Instr) :
    Leads (· = ' ') (Copying.codeLine names i).toList := by
  simp only [Copying.codeLine, String.toList_append]
  exact ⟨' ', _, rfl, rfl⟩

def Readable (p : Program) (f : Function) (code : List Instr) : Prop :=
  ∀ i ∈ code, Legible i ∧ WellFormed.instr? p f f.temps i = none

theorem settlesBlock (plain : ∀ name ∈ names, Plain name) (plain' : ∀ name ∈ names', Plain name)
    (label : Plain b.label) (label' : Plain c.label) (code : Readable p f b.instrs)
    (code' : Readable q g c.instrs) :
    Settles (Leads Outside) (block names b) (block names' c) (b.ShownAlike names names' c) := by
  have head := ((settlesWord label label').append (fun _ => settlesOpening b.params c.params)
    (fun s colon => openingLeads b.params colon (by decide) (by decide))
    fun s colon => openingLeads c.params colon (by decide) (by decide)).closed ":\n"
      fun _ => ⟨':', _, rfl, rfl⟩
  have lines := settlesJoin (fun _ => indentInside)
    (fun i member j among => (settlesLine plain plain' (code i member).1 (code' j among).1
      (code i member).2 (code' j among).2).follow fun _ _ => trivial)
    (fun i _ => lineLeads names i) fun j _ => lineLeads names' j
  rw [blockText, blockText]
  exact (head.beyond lines).mono fun ⟨⟨labels, params⟩, instrs⟩ => ⟨labels, params, instrs⟩

theorem blockLeads (names : List String) (label : Plain b.label) :
    Leads Begins (block names b).toList := by
  rw [blockText, String.append_assoc, String.append_assoc]
  by_cases some : b.label = ""
  · have colon : Leads (· = ':') ":\n".toList := ⟨':', _, rfl, rfl⟩
    rw [some, String.empty_append, String.toList_append]
    exact openingLeads b.params (colon.lead _) (by decide) (by decide)
  · exact ((wordLeads label some).mono fun _ => .inl).lead _

theorem frameSlotLeads (k : FrameSlot × Nat) : Leads (· = ' ') (slot k).toList := by
  simp only [slot, String.toList_append]
  exact ⟨' ', _, rfl, rfl⟩

theorem settlesFrame (slots slots' : List FrameSlot) :
    Settles (Leads Outside) (String.join (slots.zipIdx.map slot))
      (String.join (slots'.zipIdx.map slot)) (slots = slots') := by
  have lines : Settles (Leads Outside) (String.join (slots.zipIdx.map slot))
      (String.join (slots'.zipIdx.map slot)) (List.Forall₂ (· = ·) slots.zipIdx slots'.zipIdx) :=
    settlesJoin (fun _ => indentInside)
      (fun k _ l _ => (settlesFrameSlot k l).follow fun _ _ => trivial)
      (fun k _ => frameSlotLeads k) fun l _ => frameSlotLeads l
  refine lines.mono fun same => ?_
  rw [List.forall₂_eq_eq_eq] at same
  rw [← List.zipIdx_map_fst 0 slots, same, List.zipIdx_map_fst]

theorem readableCode (sound : f.violation? p = none) (spelled : f.Spelled) (block : b ∈ f.blocks) :
    Readable p f b.instrs := by
  intro i member
  have code : i ∈ f.code := List.mem_flatMap.mpr ⟨b, block, member⟩
  have checked := WellFormed.instrSound sound block member
  refine ⟨⟨spelled.operands i code, spelled.branchArgs i code, spelled.callees i code, ?_⟩, checked⟩
  intro branch label among
  obtain ⟨-, lists, targets⟩ := WellFormed.branchTargets checked branch
  obtain ⟨args, pair⟩ : ∃ args, (label, args) ∈ i.labels.zip i.branchArgs := by
    obtain ⟨k, inside, rfl⟩ := List.mem_iff_getElem.mp among
    exact ⟨i.branchArgs[k], List.mem_iff_getElem.mpr ⟨k, by simp; omega, List.getElem_zip⟩⟩
  obtain ⟨target, named, -⟩ := targets label args pair
  have own : target.label = label := by simpa using List.find?_some named
  exact own ▸ spelled.labels target (List.mem_of_find?_eq_some named)

theorem settlesFunction (sound : f.violation? p = none) (sound' : g.violation? q = none)
    (spelled : f.Spelled) (spelled' : g.Spelled) :
    Settles Anything (function f) (function g) (f.ShownAlike g) := by
  have bracket (s : Signature) (r : List Char) : Leads Apart (s.text.toList ++ r) := by
    simp only [Signature.text, Signature.listText, String.toList_append]
    exact ⟨'(', _, rfl, by decide⟩
  have head := (((settlesWord spelled.name spelled'.name).behind "func @").append
    (fun _ => settlesSignature f.sig g.sig) (fun s _ => bracket f.sig s)
    fun s _ => bracket g.sig s).closed " \x7b\n" fun _ => trivial
  have blocks := settlesJoin (D := (· = '\x7d')) (fun _ => beginsNever)
    (fun b member c among => settlesBlock spelled.valueNames spelled'.valueNames
      (spelled.labels b member) (spelled'.labels c among) (readableCode sound spelled member)
      (readableCode sound' spelled' among))
    (fun b member => blockLeads f.valueNames (spelled.labels b member))
    fun c among => blockLeads g.valueNames (spelled'.labels c among)
  have outside {f : Function} (spelled : f.Spelled) (s : List Char)
      (brace : Leads (· = '\x7d') s) :
      Leads Outside ((String.join (f.blocks.map (block f.valueNames))).toList ++ s) :=
    joinLeads (fun b member => (blockLeads f.valueNames (spelled.labels b member)).mono
      fun _ => .inl) (brace.mono fun _ => .inr)
  have whole := ((head.beyond (settlesFrame f.slots g.slots)).append (fun _ => blocks)
    (outside spelled) (outside spelled')).closed "\x7d\n" fun _ => ⟨'\x7d', _, rfl, rfl⟩
  exact whole.mono fun ⟨⟨⟨name, sig⟩, slots⟩, blocks⟩ => ⟨name, sig, slots, blocks⟩

end Functions

section Agreement

variable {f g : Function} {i j : Instr} {b c : Block} {names names' : List String}

theorem detailsAgree (agrees : i.ShownAlike j) : details i = details j := by
  have target (branch : i.op = .br ∨ i.op = .cbr) (k : Nat) : target i k = target j k := by
    rw [target, target, agrees.labels branch, agrees.branchArgs branch]
  unfold details
  rw [← agrees.op, ← agrees.operands, ← agrees.results]
  split
  case h_1 op => rw [agrees.callee op]
  case h_2 op => rw [target (.inl op)]
  case h_3 op => rw [target (.inr op), target (.inr op)]
  case h_4 op => rfl
  case h_5 call br cbr ret =>
    have plain : i.op.isTerminator = false := by
      cases op : i.op <;>
        first | rfl | exact absurd op br | exact absurd op cbr | exact absurd op ret
    rw [agrees.type call plain]

theorem lineAgrees (agrees : i.ShownAlike j) (name : i.shownName names = j.shownName names') :
    Copying.codeLine names i = Copying.codeLine names' j := by
  rw [Copying.codeLine, Copying.codeLine, instrSplit, instrSplit, commentText, commentText,
    detailsAgree agrees, agrees.op, agrees.results, name]

theorem sameTexts {α β : Type} {g : α → String} {h : β → String} {xs : List α} {ys : List β}
    (same : List.Forall₂ (fun x y => g x = h y) xs ys) : xs.map g = ys.map h := by
  rwa [← List.forall₂_eq_eq_eq, List.forall₂_map_left_iff, List.forall₂_map_right_iff]

theorem blockAgrees (agrees : b.ShownAlike names names' c) : block names b = block names' c := by
  have lines := sameTexts (agrees.instrs.imp fun i j both =>
    lineAgrees (i := i) (j := j) both.1 both.2)
  rw [blockText, blockText, agrees.label, agrees.params, lines]

theorem functionAgrees (agrees : f.ShownAlike g) : function f = function g := by
  have blocks := sameTexts (agrees.blocks.imp fun _ _ => blockAgrees)
  rw [function, function, agrees.name, agrees.sig, agrees.slots, blocks]

/-- Functions that pass the checks, with words for names and no float literal, are printed the
same exactly if they agree in all that a function is made of, up to what no operation uses. -/
theorem printedSameIff {p q : Program} (sound : f.violation? p = none)
    (sound' : g.violation? q = none) (spelled : f.Spelled) (spelled' : g.Spelled) :
    function f = function g ↔ f.ShownAlike g := by
  refine ⟨fun same => ?_, functionAgrees⟩
  have whole : (function f).toList ++ [] = (function g).toList ++ [] := by rw [same]
  exact (settlesFunction sound sound' spelled spelled' [] [] trivial trivial whole).1

def countdown (loc : Loc) (unused : String) : Function :=
  ⟨"countdown", ⟨[⟨.i1, .normal⟩, ⟨.i32, .normal⟩], [⟨.i32, .normal⟩]⟩,
    [⟨"entry", [⟨0, .i1⟩, ⟨1, .i32⟩],
      [⟨.int .add, .i32, [⟨2, .i32⟩], [.temp 1, .int (-3)], unused, [], [], loc⟩,
       ⟨.call, .i32, [⟨3, .i32⟩], [.bool true, .temp 2], "countdown", [], [], loc⟩,
       ⟨.cbr, .void, [], [.temp 0], unused, ["done", "done"], [[.temp 3], [.temp 2]], loc⟩]⟩,
     ⟨"done", [⟨4, .i32⟩], [⟨.ret, .void, [], [.temp 4], unused, [], [], loc⟩]⟩],
    [⟨8, 8⟩], ["", "", "", "rest_1"]⟩

theorem countdownsPrintedSame :
    (countdown .unknown "").violation? ⟨[], [countdown .unknown ""]⟩ = none ∧
    (countdown ⟨1, 4, 2⟩ "other").violation? ⟨[], [countdown .unknown ""]⟩ = none ∧
    (countdown .unknown "").Spelled ∧ (countdown ⟨1, 4, 2⟩ "other").Spelled ∧
    countdown .unknown "" ≠ countdown ⟨1, 4, 2⟩ "other" ∧
    function (countdown .unknown "") = function (countdown ⟨1, 4, 2⟩ "other") ∧
    (countdown .unknown "").ShownAlike (countdown ⟨1, 4, 2⟩ "other") := by
  have sound : (countdown .unknown "").violation? ⟨[], [countdown .unknown ""]⟩ = none := by
    decide +kernel
  have sound' : (countdown ⟨1, 4, 2⟩ "other").violation? ⟨[], [countdown .unknown ""]⟩ = none := by
    decide +kernel
  have spelled : (countdown .unknown "").Spelled := by decide +kernel
  have spelled' : (countdown ⟨1, 4, 2⟩ "other").Spelled := by decide +kernel
  have same : function (countdown .unknown "") = function (countdown ⟨1, 4, 2⟩ "other") := by
    decide +kernel
  exact ⟨sound, sound', spelled, spelled', by decide, same,
    (printedSameIff sound sound' spelled spelled').mp same⟩

end Agreement

end Printer
end FixedIL
