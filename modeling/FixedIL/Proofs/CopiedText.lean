import FixedIL.Proofs.CopiedCode
import FixedIL.Proofs.Definitions
import Mathlib.Algebra.Group.Int.Defs

/-!
When the identity pass prints the program it was given. Texts are compared by their lengths: a
frame slot is never written longer than it was, so that texts agree only if all parts of them do.
-/
namespace FixedIL.Copying

structure Shortens (P : Prop) (s t : String) : Prop where
  length : t.length ≤ s.length
  same : t = s → P

section Texts

variable {P Q : Prop} {s s' t t' : String}

theorem shortensSelf (s : String) : Shortens True s s := ⟨Nat.le_refl _, fun _ => trivial⟩

theorem Shortens.mono (shortens : Shortens P s t) (weaker : P → Q) : Shortens Q s t :=
  ⟨shortens.length, fun same => weaker (shortens.same same)⟩

theorem Shortens.append (first : Shortens P s t) (second : Shortens Q s' t') :
    Shortens (P ∧ Q) (s ++ s') (t ++ t') := by
  have short := first.length
  have short' := second.length
  refine ⟨by rw [String.length_append, String.length_append]; omega, fun same => ?_⟩
  have length := congrArg String.length same
  rw [String.length_append, String.length_append] at length
  have chars := congrArg String.toList same
  rw [String.toList_append, String.toList_append] at chars
  obtain ⟨left, right⟩ := List.append_inj chars
    (by rw [String.length_toList, String.length_toList]; omega)
  exact ⟨first.same (String.toList_inj.mp left), second.same (String.toList_inj.mp right)⟩

theorem Shortens.behind (lead : String) (shortens : Shortens P s t) :
    Shortens P (lead ++ s) (lead ++ t) := ((shortensSelf lead).append shortens).mono And.right

theorem Shortens.ahead (shortens : Shortens P s t) (rest : String) :
    Shortens P (s ++ rest) (t ++ rest) := (shortens.append (shortensSelf rest)).mono And.left

variable {α : Type} {xs : List α} {g g' : α → String} {R : α → Prop}

theorem shortensJoin (each : ∀ x ∈ xs, Shortens (R x) (g x) (g' x)) :
    Shortens (∀ x ∈ xs, R x) (String.join (xs.map g)) (String.join (xs.map g')) := by
  induction xs with
  | nil => exact ⟨Nat.le_refl _, fun _ => List.forall_mem_nil _⟩
  | cons x rest ih =>
    rw [List.map_cons, List.map_cons, String.join_cons, String.join_cons]
    have others := ih fun y member => each y (List.mem_cons_of_mem _ member)
    exact ((each x List.mem_cons_self).append others).mono List.forall_mem_cons.mpr

theorem shortensIntercalate (sep : String) (each : ∀ x ∈ xs, Shortens (R x) (g x) (g' x)) :
    Shortens (∀ x ∈ xs, R x) (sep.intercalate (xs.map g)) (sep.intercalate (xs.map g')) := by
  induction xs with
  | nil => exact ⟨Nat.le_refl _, fun _ => List.forall_mem_nil _⟩
  | cons x rest ih =>
    have first := each x List.mem_cons_self
    have others := ih fun y member => each y (List.mem_cons_of_mem _ member)
    cases rest with
    | nil => exact first.mono fun holds y member => List.mem_singleton.mp member ▸ holds
    | cons y rest =>
      simp only [List.map_cons] at others ⊢
      rw [String.intercalate_cons_of_ne_nil (List.cons_ne_nil _ _),
        String.intercalate_cons_of_ne_nil (List.cons_ne_nil _ _)]
      exact ((first.ahead sep).append others).mono List.forall_mem_cons.mpr

theorem decimalLength {m n : Nat} (less : m ≤ n) : m.repr.length ≤ n.repr.length := by
  have positive : 0 < (Nat.toDigits 10 n).length := Nat.length_toDigits_pos
  rw [← String.length_toList, ← String.length_toList, Nat.toList_repr, Nat.toList_repr,
    Nat.length_toDigits_le_iff (by decide) positive]
  exact Nat.lt_of_le_of_lt less ((Nat.length_toDigits_le_iff (by decide) positive).mp (Nat.le_refl _))

theorem decimalInjective {m n : Nat} (same : m.repr = n.repr) : m = n := by
  have digits := congrArg (fun text => Nat.ofDigitChars 10 text.toList 0) same
  simpa only [Nat.toList_repr, Nat.ofDigitChars_ten_toDigits] using digits

end Texts

theorem slotNumberCut {n : Int64} (nonneg : 0 ≤ n) :
    n.toUInt64.toUInt32.toUInt64.toInt64.toInt = n.toInt % 2 ^ 32 := by
  have known : 0 ≤ n.toInt := Int64.le_iff_toInt_le.mp nonneg
  have word := BitVec.toInt_eq_toNat_cond n.toBitVec
  have bound := n.toBitVec.isLt
  rw [Int64.toInt_toBitVec] at word
  have whole : n.toInt = n.toBitVec.toNat := by
    split at word <;> omega
  have cut : n.toUInt64.toUInt32.toUInt64.toInt64.toBitVec.toNat = n.toBitVec.toNat % 2 ^ 32 := by
    simp
  rw [← Int64.toInt_toBitVec, BitVec.toInt_eq_toNat_of_lt (by omega), cut, whole]
  rfl

def PlainSlot (i : Instr) : Prop :=
  i.op = .stackaddr →
    ∃ n rest, i.operands = .int n :: rest ∧ 0 ≤ n.toInt ∧ n.toInt < 2 ^ 32

def OneSignature (p : Program) : Prop :=
  ∀ f ∈ p.functions, ∀ g ∈ p.functions, f.name = g.name → f.sig = g.sig

theorem intText {n : Int64} (nonneg : 0 ≤ n.toInt) : (Value.int n).text = n.toInt.toNat.repr := by
  obtain ⟨k, is⟩ := Int.eq_ofNat_of_zero_le nonneg
  rw [Value.text, is]
  rfl

theorem slotShortens {v : Value} {n : Int64} (literal : v.intLiteral? = some n) (nonneg : 0 ≤ n) :
    Shortens (∃ n, v = .int n ∧ 0 ≤ n.toInt ∧ n.toInt < 2 ^ 32) v.text (slotCopy v).text := by
  cases v with
  | int n =>
    cases literal
    have known : 0 ≤ n.toInt := Int64.le_iff_toInt_le.mp nonneg
    have number := slotNumberCut nonneg
    rw [show slotCopy (.int n) = .int n.toUInt64.toUInt32.toUInt64.toInt64 from rfl,
      intText known, intText (by omega), number]
    refine ⟨decimalLength (by omega), fun same => ⟨n, rfl, known, ?_⟩⟩
    have whole := decimalInjective same
    omega
  | bool b => cases b <;> exact ⟨by decide, fun same => absurd same (by decide)⟩
  | temp | float | null => cases literal

theorem plainCopy {i : Instr} (plain : PlainSlot i) : instrCopy i = i := by
  unfold instrCopy
  split
  · rename_i address
    obtain ⟨n, rest, operands, nonneg, small⟩ := plain address
    have number := slotNumberCut (Int64.le_iff_toInt_le.mpr nonneg)
    have same : n.toUInt64.toUInt32.toUInt64.toInt64 = n := Int64.toInt_inj.mp (by omega)
    have slot : slotCopy (.int n) = .int n := congrArg Value.int same
    rw [operands, List.modifyHead_cons, slot, ← operands]
  · rfl

theorem valuesCons (rest : List Value) :
    ∃ tail, ∀ v, Printer.values (v :: rest) = v.text ++ tail := by
  cases rest with
  | nil => exact ⟨"", fun v => (String.append_empty).symm⟩
  | cons w rest =>
    refine ⟨", " ++ Printer.values (w :: rest), fun v => ?_⟩
    rw [← String.append_assoc]
    exact String.intercalate_cons_of_ne_nil (List.cons_ne_nil _ _)

theorem instrShortens {i : Instr} (slotted : Slotted i) :
    Shortens (PlainSlot i) (Printer.instr i) (Printer.instr (instrCopy i)) := by
  by_cases address : i.op = .stackaddr
  · obtain ⟨v, rest, n, operands, literal, nonneg⟩ := slotted address
    obtain ⟨tail, text⟩ := valuesCons rest
    have copied : instrCopy i = { i with operands := slotCopy v :: rest } := by
      rw [instrCopy, if_pos address, operands]
      rfl
    have printed (w : Value) : Printer.instr { i with operands := w :: rest } =
        Printer.defines i ++ ("stackaddr" ++ (if i.type = .void then "" else "." ++ i.type.name) ++
          (" " ++ (w.text ++ tail))) := by
      rw [← text, Printer.instr, Printer.body, address]
      rfl
    have own : i = { i with operands := v :: rest } := by rw [← operands]
    rw [copied, printed, congrArg Printer.instr own, printed]
    refine (((slotShortens literal nonneg).ahead tail).behind " " |>.behind _ |>.behind _).mono ?_
    rintro ⟨n, rfl, bounds⟩ _
    exact ⟨n, rest, operands, bounds⟩
  · have copied : instrCopy i = i := if_neg address
    rw [copied]
    exact (shortensSelf _).mono fun _ is => absurd is address

def codeLine (names : List String) (i : Instr) : String :=
  "  " ++ Printer.instr i ++ Printer.nameComment names i ++ "\n"

theorem lineShortens {i : Instr} (names : List String) (slotted : Slotted i) :
    Shortens (PlainSlot i) (codeLine names i) (codeLine names (instrCopy i)) := by
  have comment : Printer.nameComment names (instrCopy i) = Printer.nameComment names i := by
    unfold instrCopy
    split <;> rfl
  rw [codeLine, codeLine, comment]
  exact (((instrShortens slotted).behind "  ").ahead _).ahead "\n"

theorem blockShortens {b : Block} (names : List String) (slotted : ∀ i ∈ b.instrs, Slotted i) :
    Shortens (∀ i ∈ b.instrs, PlainSlot i) (Printer.block names b)
      (Printer.block names (blockCopy b)) := by
  have lines := shortensJoin fun i member => lineShortens names (slotted i member)
  rw [Printer.block, Printer.block, blockCopy, List.map_map]
  exact lines.behind _

theorem functionShortens {p : Program} {f : Function}
    (sig : ((p.functionNamed? f.name).getD f).sig = f.sig)
    (slotted : ∀ b ∈ f.blocks, ∀ i ∈ b.instrs, Slotted i) :
    Shortens (∀ b ∈ f.blocks, ∀ i ∈ b.instrs, PlainSlot i) (Printer.function f)
      (Printer.function (functionCopy p f)) := by
  have blocks := shortensJoin fun b member => blockShortens f.valueNames (slotted b member)
  rw [Printer.function, Printer.function, functionCopy, sig, List.map_map]
  exact (blocks.behind _).ahead _

theorem programShortens {p : Program}
    (sigs : ∀ f ∈ p.functions, ((p.functionNamed? f.name).getD f).sig = f.sig)
    (slotted : ∀ f ∈ p.functions, ∀ b ∈ f.blocks, ∀ i ∈ b.instrs, Slotted i) :
    Shortens (∀ f ∈ p.functions, ∀ b ∈ f.blocks, ∀ i ∈ b.instrs, PlainSlot i)
      (Printer.program p) (Printer.program (programCopy p)) := by
  have functions := shortensIntercalate "\n" fun f member =>
    functionShortens (sigs f member) (slotted f member)
  unfold Printer.program programCopy
  cases empty : p.functions with
  | nil => exact ⟨Nat.le_refl _, fun _ => List.forall_mem_nil _⟩
  | cons f rest =>
    rw [empty] at functions
    simp only [List.isEmpty_cons, List.map_cons, List.map_map] at functions ⊢
    exact (functions.behind _).behind _

structure Kept (f f' : Function) : Prop where
  name : f'.name = f.name
  slots : f'.slots = f.slots
  valueNames : f'.valueNames = f.valueNames
  locs : f'.blocks.map (·.instrs.map Instr.loc) = f.blocks.map (·.instrs.map Instr.loc)
  nextTemp : f'.nextTemp = f.nextTemp

theorem copyKept (p : Program) (f : Function) : Kept f (functionCopy p f) := by
  have loc (i : Instr) : (instrCopy i).loc = i.loc := by
    unfold instrCopy
    split <;> rfl
  have results (i : Instr) : (instrCopy i).results = i.results := by
    unfold instrCopy
    split <;> rfl
  refine ⟨rfl, rfl, rfl, ?_, ?_⟩
  · simp [functionCopy, blockCopy, loc]
  · have block (b : Block) : (blockCopy b).temps = b.temps := by
      simp [Block.temps, blockCopy, List.flatMap_map, results]
    have temps : (functionCopy p f).temps = f.temps := by
      simp [Function.temps, functionCopy, List.flatMap_map, block]
    rw [Function.nextTemp, Function.nextTemp, temps]
    rfl

theorem oneSignatureIff {p : Program} : OneSignature p ↔
    ∀ f ∈ p.functions, ((p.functionNamed? f.name).getD f).sig = f.sig := by
  constructor
  · intro one f member
    obtain ⟨g, inside, name, found⟩ := Program.namedFirst member
    rw [found]
    exact one g inside f member name
  · intro shared f member g member' name
    obtain ⟨h, -, -, found⟩ := Program.namedFirst member
    have own := shared f member
    have other := shared g member'
    rw [← name, found] at other
    rw [found] at own
    exact own.symm.trans other

theorem copyExact {p : Program} (one : OneSignature p)
    (plain : ∀ f ∈ p.functions, ∀ i ∈ f.code, PlainSlot i) : programCopy p = p := by
  have block {f : Function} (member : f ∈ p.functions) (b : Block) (inside : b ∈ f.blocks) :
      blockCopy b = b := by
    have instrs : b.instrs.map instrCopy = b.instrs := List.map_congr_left (fun i among =>
      plainCopy (plain f member i (List.mem_flatMap.mpr ⟨b, inside, among⟩))) |>.trans (List.map_id _)
    rw [blockCopy, instrs]
  have function (f : Function) (member : f ∈ p.functions) : functionCopy p f = f := by
    have blocks : f.blocks.map blockCopy = f.blocks :=
      (List.map_congr_left (block member)).trans (List.map_id _)
    rw [functionCopy, oneSignatureIff.mp one f member, blocks]
  rw [programCopy, (List.map_congr_left function).trans (List.map_id _)]

/-- The identity pass keeps externs, and the slots, names, places and ids of each function. It
prints the same program with the same signatures exactly if functions of one name have one
signature, and each frame address starts with an integer literal of 32 bits. -/
theorem identityReproduces {p p' : Program} (run : Pass.identity.run p = .ok p') :
    p'.externs = p.externs ∧ List.Forall₂ Kept p.functions p'.functions ∧
      ((Printer.program p' = Printer.program p ∧
          p'.functions.map Function.sig = p.functions.map Function.sig) ↔
        (OneSignature p ∧ ∀ f ∈ p.functions, ∀ i ∈ f.code, PlainSlot i)) := by
  obtain ⟨rfl, slotted⟩ := runCopies run
  refine ⟨rfl, ?_, fun ⟨text, sigs⟩ => ?_, fun ⟨one, plain⟩ => ?_⟩
  · exact List.forall₂_map_right_iff.mpr (List.forall₂_same.mpr fun f _ => copyKept p f)
  · rw [programCopy, List.map_map] at sigs
    have shared : ∀ f ∈ p.functions, ((p.functionNamed? f.name).getD f).sig = f.sig :=
      List.map_inj_left.mp sigs
    refine ⟨oneSignatureIff.mpr shared, fun f member i code => ?_⟩
    obtain ⟨b, block, among⟩ := List.mem_flatMap.mp code
    exact (programShortens shared slotted).same text f member b block i among
  · rw [copyExact one plain]
    exact ⟨rfl, rfl⟩

def secondSource : Program :=
  ⟨[], [⟨"second", ⟨[], [⟨.ptr, .normal⟩]⟩,
    [⟨"entry", [],
      [⟨.stackaddr, .ptr, [⟨0, .ptr⟩], [.bool true, .int 0], "", [], [], .unknown⟩,
       ⟨.ret, .void, [], [.temp 0], "", [], [], .unknown⟩]⟩],
    [⟨4, 4⟩, ⟨8, 8⟩], []⟩]⟩

theorem secondPrintsAnother : secondSource.WellFormed ∧
    Pass.identity.run secondSource = .ok (programCopy secondSource) ∧
    Printer.program (programCopy secondSource) ≠ Printer.program secondSource := by
  have run : Pass.identity.run secondSource = .ok (programCopy secondSource) :=
    okOfOption (by decide +kernel)
  refine ⟨by decide +kernel, run, fun same => ?_⟩
  obtain ⟨-, plain⟩ := (identityReproduces run).2.2.mp ⟨same, rfl⟩
  obtain ⟨n, rest, operands, -⟩ := plain _ List.mem_cons_self _ List.mem_cons_self rfl
  cases operands

end FixedIL.Copying
