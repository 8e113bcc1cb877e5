import FixedIL.Proofs.CopiedText
import FixedIL.Proofs.LoweredFloats

/-!
Functions without floats behind lowering. Whether an instruction is copied or written anew, it is
printed as the identity pass prints it. Only a constant written as a float is encoded, although it
may have neither a float type nor a float literal, and the texts go apart at the first of them.
-/
namespace FixedIL.Lowering

open Emit PassM Copying

def Departs (s t : String) : Prop :=
  ∃ lead a b x y, s = lead ++ (a ++ x) ∧ t = lead ++ (b ++ y) ∧ a.length = b.length ∧ a ≠ b

structure Agree (P : Prop) (s t : String) : Prop where
  same : P → s = t
  apart : ¬ P → Departs s t

section Texts

variable {P Q : Prop} {s s' t t' : String}

theorem departsDiffer (departs : Departs s t) : s ≠ t := by
  obtain ⟨lead, a, b, x, y, rfl, rfl, length, differ⟩ := departs
  intro same
  have chars := congrArg String.toList (String.append_right_inj lead |>.mp same)
  rw [String.toList_append, String.toList_append] at chars
  have heads := (List.append_inj chars
    (by rw [String.length_toList, String.length_toList, length])).1
  exact differ (String.toList_inj.mp heads)

theorem agreeIff (agree : Agree P s t) : s = t ↔ P :=
  ⟨fun same => Classical.byContradiction fun other => departsDiffer (agree.apart other) same,
    agree.same⟩

theorem agreeSelf (s : String) : Agree True s s := ⟨fun _ => rfl, fun none => absurd trivial none⟩

theorem Agree.congr (agree : Agree P s t) (same : P ↔ Q) : Agree Q s t :=
  ⟨fun q => agree.same (same.mpr q), fun none => agree.apart fun p => none (same.mp p)⟩

theorem Agree.append (first : Agree P s t) (second : Agree Q s' t') :
    Agree (P ∧ Q) (s ++ s') (t ++ t') := by
  refine ⟨fun ⟨p, q⟩ => by rw [first.same p, second.same q], fun none => ?_⟩
  by_cases p : P
  · obtain ⟨lead, a, b, x, y, rfl, rfl, rest⟩ := second.apart fun q => none ⟨p, q⟩
    refine ⟨t ++ lead, a, b, x, y, ?_, (String.append_assoc ..).symm, rest⟩
    rw [first.same p, String.append_assoc]
  · obtain ⟨lead, a, b, x, y, rfl, rfl, rest⟩ := first.apart p
    refine ⟨lead, a, b, x ++ s', y ++ t', ?_, ?_, rest⟩ <;> simp only [String.append_assoc]

theorem Agree.behind (lead : String) (agree : Agree P s t) : Agree P (lead ++ s) (lead ++ t) :=
  ((agreeSelf lead).append agree).congr (iff_of_eq (true_and _))

theorem Agree.ahead (agree : Agree P s t) (rest : String) : Agree P (s ++ rest) (t ++ rest) :=
  (agree.append (agreeSelf rest)).congr (iff_of_eq (and_true _))

end Texts

structure FloatFreeInstr (i : Instr) : Prop where
  types : i.typesFloat = false
  literals : i.LiteralFree
  op : i.op.category ∉ [.floatArith, .floatCompare, .floatRemainder, .conversion]

structure FloatFreeFunction (c : Config) (p : Program) (f : Function) : Prop where
  sig : f.sig.mentionsFloat = false
  params : ∀ b ∈ f.blocks, ∀ t ∈ b.params, t.type.isFloat = false
  instrs : ∀ i ∈ f.code, FloatFreeInstr i
  callees : ∀ i ∈ callsOf f.code,
    (p.functionNamed? i.callee).isSome ∨ c.registry.findSymbol? i.callee = none

instance (i : Instr) : Decidable i.LiteralFree :=
  decidable_of_iff ((∀ v ∈ i.operands, v.isFloat = false) ∧
      ∀ args ∈ i.branchArgs, ∀ v ∈ args, v.isFloat = false)
    ⟨fun ⟨operands, arguments⟩ => ⟨operands, arguments⟩,
      fun ⟨operands, arguments⟩ => ⟨operands, arguments⟩⟩

instance (i : Instr) : Decidable (FloatFreeInstr i) :=
  decidable_of_iff (i.typesFloat = false ∧ i.LiteralFree ∧
      i.op.category ∉ [.floatArith, .floatCompare, .floatRemainder, .conversion])
    ⟨fun ⟨types, literals, op⟩ => ⟨types, literals, op⟩,
      fun ⟨types, literals, op⟩ => ⟨types, literals, op⟩⟩

instance (c : Config) (p : Program) (f : Function) : Decidable (FloatFreeFunction c p f) :=
  decidable_of_iff (f.sig.mentionsFloat = false ∧
      (∀ b ∈ f.blocks, ∀ t ∈ b.params, t.type.isFloat = false) ∧ (∀ i ∈ f.code, FloatFreeInstr i) ∧
      ∀ i ∈ callsOf f.code,
        (p.functionNamed? i.callee).isSome ∨ (c.registry.findSymbol? i.callee).isNone)
    ⟨fun ⟨sig, params, instrs, callees⟩ => ⟨sig, params, instrs, fun i call =>
        (callees i call).imp_right Option.isNone_iff_eq_none.mp⟩,
      fun ⟨sig, params, instrs, callees⟩ => ⟨sig, params, instrs, fun i call =>
        (callees i call).imp_right Option.isNone_iff_eq_none.mpr⟩⟩

structure LeftAlone (c : Config) (p : Program) (f : Function) (i : Instr) : Prop where
  sound : WellFormed.instr? p f f.temps i = none
  free : FloatFreeInstr i
  callee : i.op = .call →
    (p.functionNamed? i.callee).isSome ∨ c.registry.findSymbol? i.callee = none

section Instructions

variable {c : Config} {p : Program} {f : Function} {site : Site} {σ : Value → Value} {i j : Instr}
  {s s' : PassState} {x : Emit Unit} {entries : List (TempId × Value)}

theorem plainTypes {ts : List Ty} (free : ∀ t ∈ ts, t.isFloat = false) :
    ts.map (mapTy c.format) = ts :=
  (List.map_congr_left fun t member => plainType (free t member)).trans (List.map_id _)

theorem plainOperands {t : Encoding} (same : ∀ id v, s.values.lookup id = some v → v = .temp id)
    {vs : List Value} (free : ∀ v ∈ vs, v.isFloat = false) : vs.map (s.operand t) = vs := by
  refine (List.map_congr_left fun v member => ?_).trans (List.map_id _)
  refine verbatimOperand same fun x is => ?_
  have literal := free v member
  rw [is] at literal
  cases literal

theorem bodyAgrees (names : List String) {P : Prop}
    (results : j.results.map Temp.id = i.results.map Temp.id)
    (body : Agree P (Printer.body j) (Printer.body i)) :
    Agree P (codeLine names j) (codeLine names i) := by
  have defines : Printer.defines j = Printer.defines i := by
    have shown (k : Instr) : Printer.defines k = if (k.results.map Temp.id).isEmpty then "" else
        Printer.commaList ((k.results.map Temp.id).map Value.tempText) ++ " = " := by
      simp [Printer.defines, Function.comp_def]
    rw [shown, shown, results]
  have comment : Printer.nameComment names j = Printer.nameComment names i := by
    have shown (k : Instr) : Printer.nameComment names k =
        (k.results.map Temp.id).head?.elim "" fun id =>
          if ((names[id.toNat]?).getD "").isEmpty then "" else
            "  ; " ++ (names[id.toNat]?).getD "" := by
      cases results : k.results <;> simp [Printer.nameComment, results]
    rw [shown, shown, results]
  rw [codeLine, codeLine, Printer.instr, Printer.instr, defines, comment]
  exact (((body.behind _).behind "  ").ahead _).ahead "\n"

theorem sameBody (body : Printer.body j = Printer.body i) (unencoded : i.op ≠ .fconst) :
    Agree (i.op ≠ .fconst) (Printer.body j) (Printer.body i) := by
  rw [body]
  exact (agreeSelf _).congr (iff_of_true trivial unencoded)

def operandsText (i : Instr) : String :=
  (if i.type = .void then "" else "." ++ i.type.name) ++ Printer.behind " " i.operands

theorem plainBody (plain : i.op.category ∉ [.call, .control]) :
    Printer.body i = i.op.mnemonic ++ operandsText i := by
  unfold Printer.body
  split <;> rename_i op
  · rw [op] at plain
    exact absurd (by decide) plain
  · rw [op] at plain
    exact absurd (by decide) plain
  · rw [op] at plain
    exact absurd (by decide) plain
  · rw [op] at plain
    exact absurd (by decide) plain
  · exact String.append_assoc

theorem redefinitionBody {t : Temp} {op : Opcode} (plain : op.category ∉ [.call, .control])
    (is : i.op = op) : Printer.body (redefinition i t op i.type i.operands) = Printer.body i := by
  rw [plainBody plain, plainBody (is ▸ plain), is]
  rfl

theorem rewrittenAgrees (names : List String) (alone : LeftAlone c p f i)
    (operands : i.operands.map σ = i.operands)
    (arguments : i.branchArgs.map (·.map σ) = i.branchArgs)
    (rewritten : Rewritten ((pass c).site p f) σ i j) :
    Agree (i.op ≠ .fconst) (codeLine names j) (codeLine names (instrCopy i)) := by
  have copied (plain : i.op ≠ .stackaddr) : instrCopy i = i := if_neg plain
  have type : ((pass c).site p f).encoding.mapTy i.type = i.type := by
    refine plainType ?_
    have none := alone.free.types
    rw [Instr.typesFloat, Bool.or_eq_false_iff] at none
    exact none.1
  have whole (k : Instr) (unencoded : i.op ≠ .fconst) :
      Agree (i.op ≠ .fconst) (codeLine names k) (codeLine names k) :=
    (agreeSelf _).congr (iff_of_true trivial unencoded)
  cases rewritten with
  | intConst op single results literal =>
    rw [copied (by simp [op]), ← single]
    exact bodyAgrees names (by simp [redefinition, results])
      (sameBody (redefinitionBody (by decide) op) (by simp [op]))
  | @floatConst v t x op single results literal =>
    rw [copied (by simp [op]), type]
    refine bodyAgrees names (by simp [redefinition, results])
      ⟨fun other => absurd op other, fun _ => ?_⟩
    have own : i.op.category ∉ [.call, .control] := by
      rw [op]
      decide
    exact ⟨"", "iconst", "fconst", _, _, plainBody (by decide : Category.constant ∉ _),
      (plainBody own).trans (by rw [op]; rfl), rfl, by decide⟩
  | intLiteral op =>
    have conversion := alone.free.op
    rw [op] at conversion
    exact absurd (by decide) conversion
  | select op count results | load op count results =>
    rw [copied (by simp [op]), type, operands]
    exact bodyAgrees names (by simp [redefinition, results])
      (sameBody (redefinitionBody (by decide) op) (by simp [op]))
  | store op count results =>
    rw [copied (by simp [op]), type, operands]
    exact bodyAgrees names (by simp [Instr.blank, results])
      (sameBody (by simp [Printer.body, Instr.blank, op]) (by simp [op]))
  | @stackaddr v t n op count results slot literal nonneg =>
    obtain ⟨rest, shape⟩ := List.head?_eq_some_iff.mp slot
    have same : instrCopy i = { i with
        operands := .int n.toUInt64.toUInt32.toUInt64.toInt64 :: i.operands.drop 1 } := by
      simp [instrCopy, op, shape, slotCopy, literal]
    rw [same, operands, arguments]
    exact whole _ (by simp [op])
  | copied op =>
    have plain : i.op ≠ .stackaddr ∧ i.op ≠ .fconst := by
      constructor <;> intro is <;> rw [is] at op <;> cases op
    rw [copied plain.1, operands, arguments]
    exact whole _ plain.2

theorem tempsTogether (ts : List Temp) : tempsOf (ts.map Temp.type) (ts.map Temp.id) = ts := by
  rw [tempsOf, List.zip_map', List.map_map]
  exact List.map_id _

theorem directCall {callee : String} {types : List Ty} {args : List Value} {ids : List TempId}
    (same : ids.length = types.length) (e : Emission) :
    ((do let _ ← callByPlan callee (.direct types) args ids : Emit Unit).run e).2 =
      e.push { Instr.blank .call with
        type := callType ((tempsOf types ids).map Temp.type), results := tempsOf types ids,
        operands := args, callee := callee } := by
  have plain : (ReturnPlan.direct types).usesBuffer = false := rfl
  have own : (ReturnPlan.direct types).types = types := rfl
  simp only [callByPlan, plain, own, Bool.false_eq_true, if_false, numberedAll types ids same,
    pure_bind]
  rfl

theorem resolvedPlain {target : CallTarget} (alone : LeftAlone c p f i) (op : i.op = .call)
    (resolves : Resolves c ((pass c).site p f) i.callee target) :
    target.symbol = i.callee ∧ target.plan = .direct (i.results.map Temp.type) := by
  obtain ⟨sig, meant, types⟩ := WellFormed.callTypes alone.sound op
  have plain : ∀ t ∈ i.results.map Temp.type, t.isFloat = false := by
    have none := alone.free.types
    rw [Instr.typesFloat, Bool.or_eq_false_iff] at none
    simpa using none.2
  cases resolves with
  | @function sig' own =>
    obtain ⟨g, named, rfl⟩ := Option.map_eq_some_iff.mp own
    have known : p.functionNamed? i.callee = some g := named
    rw [Program.calleeSig?, known] at meant
    cases meant
    refine ⟨rfl, congrArg ReturnPlan.direct ?_⟩
    have mapped : (g.sig.mapTypes (mapTy c.format)).returnTypes =
        g.sig.returnTypes.map (mapTy c.format) := by
      simp [Signature.returnTypes, Signature.mapTypes]
    rw [types] at plain ⊢
    exact mapped.trans (plainTypes plain)
  | builtin foreign found =>
    have none : p.functionNamed? i.callee = none := foreignSignature.mp foreign
    rcases alone.callee op with own | unknown
    · rw [none] at own
      cases own
    · rw [unknown] at found
      cases found
  | @outside e foreign unknown declared =>
    have none : p.functionNamed? i.callee = none := foreignSignature.mp foreign
    have known : p.externNamed? i.callee = some e := declared
    rw [Program.calleeSig?, none, known] at meant
    cases meant
    exact ⟨rfl, congrArg ReturnPlan.direct types.symm⟩

theorem loweredAgrees {e : Emission} (names : List String) (alone : LeftAlone c p f i)
    (operands : i.operands.map σ = i.operands)
    (arguments : i.branchArgs.map (·.map σ) = i.branchArgs)
    (lowered : Lowered c ((pass c).site p f) σ i x entries) :
    ∃ j, (x.run e).2.code = e.code ++ [j] ∧ (x.run e).2.slots = e.slots ∧
      Agree (i.op ≠ .fconst) (codeLine names j) (codeLine names (instrCopy i)) ∧
      entries = keptNames i := by
  have other := alone.free.op
  have placed (j : Instr) : codeLine names (e.placed j) = codeLine names j := by
    obtain ⟨loc, same⟩ := placedLoc e j
    rw [same]
    rfl
  cases lowered with
  | @one j rewritten =>
    refine ⟨e.placed j, rfl, rfl, ?_, rfl⟩
    rw [placed]
    exact rewrittenAgrees names alone operands arguments rewritten
  | sequence results sequenced =>
    cases sequenced with
    | arith is | compare is | ofInt is | toInt is =>
      rw [is] at other
      exact absurd (by simp [Opcode.category]) other
  | same cast =>
    revert cast other
    cases i.op <;> simp [sameNumberCast, Opcode.category]
  | @call target op resolves args results =>
    obtain ⟨symbol, plan⟩ := resolvedPlain alone op resolves
    have count : (i.results.map Temp.id).length = (i.results.map Temp.type).length := by simp
    have plain : instrCopy i = i := if_neg (by simp [op])
    rw [symbol, plan, directCall count, tempsTogether, operands]
    refine ⟨_, rfl, rfl, ?_, rfl⟩
    rw [placed, plain]
    exact bodyAgrees names rfl
      (sameBody (by simp [Printer.body, op, Instr.blank]) (by simp [op]))

end Instructions

section Functions

variable {c : Config} {p : Program} {f f' : Function} {is : List Instr} {s s' : PassState}
  {bs bs' : List Block}

def Unencoded (is : List Instr) : Prop := ∀ i ∈ is, i.op ≠ .fconst

theorem traceAgrees (names : List String) (alone : ∀ i ∈ is, LeftAlone c p f i)
    (same : ∀ id v, s.values.lookup id = some v → v = .temp id)
    (trace : Trace c ((pass c).site p f) is s s') :
    (∀ id v, s'.values.lookup id = some v → v = .temp id) ∧
      s'.emission.slots = s.emission.slots ∧
      ∃ code, s'.emission.code = s.emission.code ++ code ∧
        Agree (Unencoded is) (String.join (code.map (codeLine names)))
          (String.join ((is.map instrCopy).map (codeLine names))) := by
  generalize place : (pass c).site p f = site at trace
  induction trace with
  | nil s =>
    refine ⟨same, rfl, [], (List.append_nil _).symm, ?_⟩
    exact (agreeSelf _).congr (iff_of_true trivial (List.forall_mem_nil _))
  | @cons i rest x entries s mid s' unseen lowered leads tail ih =>
    subst place
    have plain := alone i List.mem_cons_self
    have arguments : i.branchArgs.map (·.map (s.operand ((pass c).site p f).encoding)) =
        i.branchArgs := (List.map_congr_left fun args member =>
      plainOperands same (plain.free.literals.arguments args member)).trans (List.map_id _)
    obtain ⟨j, code, slots, agree, rfl⟩ := loweredAgrees (e := (located s i.loc).emission) names
      plain (plainOperands same plain.free.literals.operands) arguments lowered
    rw [← leads.emission] at code slots
    have next : ∀ id v, mid.values.lookup id = some v → v = .temp id := by
      rw [leads.values]
      exact keptVerbatim same
    obtain ⟨values, slots', code', added, agree'⟩ :=
      ih (fun i hi => alone i (List.mem_cons_of_mem _ hi)) next
    refine ⟨values, slots'.trans slots, j :: code', ?_, ?_⟩
    · rw [added, code, List.append_assoc]
      rfl
    · have both : Unencoded (i :: rest) ↔ i.op ≠ .fconst ∧ Unencoded rest := List.forall_mem_cons
      rw [List.map_cons, List.map_cons, List.map_cons, String.join_cons, String.join_cons]
      exact (agree.append agree').congr both.symm

theorem mappedPlain {b : Block} (free : ∀ t ∈ b.params, t.type.isFloat = false) :
    mappedParams ((pass c).site p f) b = b.params := by
  refine (List.map_congr_left fun t member => ?_).trans (List.map_id _)
  have same : ((pass c).site p f).encoding.mapTy t.type = t.type := plainType (free t member)
  rw [same]
  rfl

theorem blocksAgree (names : List String)
    (alone : ∀ b ∈ bs, ∀ i ∈ b.instrs, LeftAlone c p f i)
    (params : ∀ b ∈ bs, ∀ t ∈ b.params, t.type.isFloat = false)
    (same : ∀ id v, s.values.lookup id = some v → v = .temp id)
    (trace : BlocksTrace c ((pass c).site p f) bs s bs' s') :
    (∀ id v, s'.values.lookup id = some v → v = .temp id) ∧
      s'.emission.slots = s.emission.slots ∧
      Agree (Unencoded (bs.flatMap Block.instrs)) (String.join (bs'.map (Printer.block names)))
        (String.join ((bs.map blockCopy).map (Printer.block names))) := by
  generalize place : (pass c).site p f = site at trace
  induction trace with
  | nil s =>
    exact ⟨same, rfl, (agreeSelf _).congr (iff_of_true trivial (List.forall_mem_nil _))⟩
  | @cons b rest converted s mid s' trace tail ih =>
    subst place
    have begins : ∀ id v, (cleared s).values.lookup id = some v → v = .temp id := same
    obtain ⟨values, slots, code, added, agree⟩ :=
      traceAgrees names (alone b List.mem_cons_self) begins trace
    obtain ⟨values', slots', agree'⟩ := ih (fun b hb => alone b (List.mem_cons_of_mem _ hb))
      (fun b hb => params b (List.mem_cons_of_mem _ hb)) values
    refine ⟨values', slots'.trans slots, ?_⟩
    have written : mid.emission.code = code := added
    have block : Agree (Unencoded b.instrs) (Printer.block names ⟨b.label, b.params, code⟩)
        (Printer.block names (blockCopy b)) := agree.behind _
    rw [List.map_cons, List.map_cons, List.map_cons, String.join_cons, String.join_cons, written,
      mappedPlain (params b List.mem_cons_self)]
    exact (block.append agree').congr List.forall_mem_append.symm

theorem functionAgrees {before : List Extern} (sound : f.violation? p = none)
    (named : p.functionNamed? f.name = some f) (free : FloatFreeFunction c p f)
    (gives : ((pass c).function p f ((pass c).sigFor p f)).Gives (Pass.begun before) f' s') :
    Printer.function f' = Printer.function (functionCopy p f) ↔ Unencoded f.code := by
  obtain ⟨start, bs, converts⟩ := convertsAny gives
  have once := WellFormed.definesOnce sound
  have alone (b : Block) (block : b ∈ f.blocks) (i : Instr) (instr : i ∈ b.instrs) :
      LeftAlone c p f i := by
    have code : i ∈ f.code := List.mem_flatMap.mpr ⟨b, block, instr⟩
    exact ⟨WellFormed.instrSound sound block instr, free.instrs i code, fun op =>
      free.callees i (List.mem_filter.mpr ⟨code, decide_eq_true op⟩)⟩
  have same (id : TempId) (v : Value) (found : start.values.lookup id = some v) : v = .temp id := by
    rcases converts.entered once id v found with ⟨is, -⟩ | ⟨w, ⟨b, block, i, instr, cast, -⟩, -⟩
    · exact is
    · have other := (alone b block i instr).free.op
      revert cast other
      cases i.op <;> simp [sameNumberCast, Opcode.category]
  obtain ⟨values, slots, agree⟩ := blocksAgree f.valueNames alone free.params same converts.trace
  have renamed (b : Block) : renamedBlock
      (Pass.resolve s' (pass c).encoding f.nextTemp.toNat) b = b := verbatimBlock values _ b
  have sig : f'.sig = f.sig := by
    have own : ((pass c).site p f).signature? f.name = some (f.sig.mapTypes (mapTy c.format)) :=
      congrArg (Option.map _) named
    rw [converts.sig, Pass.sigFor, own]
    exact plainSig free.sig
  have shared : (functionCopy p f).sig = f.sig := by rw [functionCopy, named]; rfl
  have blocks : f'.blocks = bs := by rw [converts.blocks, funext renamed, List.map_id']
  rw [Printer.function, Printer.function, shared, sig, converts.name, converts.valueNames,
    converts.slots, slots, converts.framed, blocks]
  exact agreeIff ((agree.behind _).ahead "\x7d\n")

theorem runsBoth {p₁ p₂ : Program} {k : Nat} (lowered : (pass c).run p = .ok p₁)
    (copied : Pass.identity.run p = .ok p₂) (place : p.functions[k]? = some f) :
    ∃ f₁ before s', p₁.functions[k]? = some f₁ ∧ p₂.functions[k]? = some (functionCopy p f) ∧
      ((pass c).function p f ((pass c).sigFor p f)).Gives (Pass.begun before) f₁ s' := by
  obtain ⟨-, runs⟩ := runTrace lowered
  obtain ⟨rfl, -⟩ := runCopies copied
  obtain ⟨f₁, before, s', there, gives⟩ := Pass.runsAt runs place
  exact ⟨f₁, before, s', there, by simp [programCopy, place], gives⟩

/-- A function without floats that calls no builtin is printed alike behind lowering and behind the
identity pass, whatever the other functions hold, exactly if no constant of it is written as a
float. -/
theorem floatFreeReprinted {p₁ p₂ : Program} {k : Nat} (wellFormed : p.WellFormed)
    (lowered : (pass c).run p = .ok p₁) (copied : Pass.identity.run p = .ok p₂)
    (place : p.functions[k]? = some f) (free : FloatFreeFunction c p f) :
    ∃ f₁ f₂, p₁.functions[k]? = some f₁ ∧ p₂.functions[k]? = some f₂ ∧
      (Printer.function f₁ = Printer.function f₂ ↔ ∀ i ∈ f.code, i.op ≠ .fconst) := by
  obtain ⟨f₁, before, s', first, second, gives⟩ := runsBoth lowered copied place
  have member : f ∈ p.functions := List.mem_of_getElem? place
  have sound := WellFormed.noViolation wellFormed member
  exact ⟨f₁, _, first, second, functionAgrees sound (WellFormed.namedAlone wellFormed member)
    free gives⟩

section Pick

def pickSource : Function where
  name := "pick"
  sig := .ofTypes [.i32] [.i32]
  blocks := [⟨"entry", [⟨0, .i32⟩], [
    { Instr.blank .stackaddr with
      type := .ptr, results := [⟨1, .ptr⟩], operands := [.int 0, .int 0] },
    { Instr.blank .store with type := .i32, operands := [.temp 1, .temp 0, .int 0] },
    { Instr.blank .load with type := .i32, results := [⟨2, .i32⟩], operands := [.temp 1, .int 0] },
    { Instr.blank (.icmp .slt) with
      type := .i1, results := [⟨3, .i1⟩], operands := [.temp 2, .int 0] },
    { Instr.blank .select with
      type := .i32, results := [⟨4, .i32⟩], operands := [.temp 3, .int 0, .temp 2] },
    { Instr.blank .call with
      type := .i32, results := [⟨5, .i32⟩], operands := [.temp 4], callee := "pick" },
    { Instr.blank .ret with operands := [.temp 5] }]⟩]
  slots := [⟨4, 4⟩]
  valueNames := []

theorem pickReprinted : ∃ f₁ f₂, [squareTarget, pickSource][1]? = some f₁ ∧
    (programCopy ⟨[], [squareSource, pickSource]⟩).functions[1]? = some f₂ ∧
    Printer.function f₁ = Printer.function f₂ := by
  have lowered : (pass squareConfig).run ⟨[], [squareSource, pickSource]⟩ =
      .ok ⟨[], [squareTarget, pickSource]⟩ := okOfOption (by decide +kernel)
  have copied : Pass.identity.run ⟨[], [squareSource, pickSource]⟩ =
      .ok (programCopy ⟨[], [squareSource, pickSource]⟩) := okOfOption (by decide +kernel)
  have free : FloatFreeFunction squareConfig ⟨[], [squareSource, pickSource]⟩ pickSource := by
    decide +kernel
  obtain ⟨f₁, f₂, first, second, same⟩ :=
    floatFreeReprinted (k := 1) (by decide +kernel) lowered copied rfl free
  exact ⟨f₁, f₂, first, second, same.mpr (by decide +kernel)⟩

def threeSource : Function where
  name := "three"
  sig := .ofTypes [] [.i32]
  blocks := [⟨"entry", [], [
    { Instr.blank .fconst with type := .i32, results := [⟨0, .i32⟩], operands := [.int 3] },
    { Instr.blank .ret with operands := [.temp 0] }]⟩]
  slots := []
  valueNames := []

/-- The constant is encoded, although there is neither a float type nor a float literal. -/
theorem threeEncoded : Program.WellFormed ⟨[], [threeSource]⟩ ∧
    FloatFreeFunction squareConfig ⟨[], [threeSource]⟩ threeSource ∧
    ∃ p₁ p₂ f₁ f₂, (pass squareConfig).run ⟨[], [threeSource]⟩ = .ok p₁ ∧
      Pass.identity.run ⟨[], [threeSource]⟩ = .ok p₂ ∧
      p₁.functions[0]? = some f₁ ∧ p₂.functions[0]? = some f₂ ∧
      Printer.function f₁ ≠ Printer.function f₂ := by
  have wellFormed : Program.WellFormed ⟨[], [threeSource]⟩ := by decide +kernel
  have free : FloatFreeFunction squareConfig ⟨[], [threeSource]⟩ threeSource := by decide +kernel
  have ends : ((pass squareConfig).run ⟨[], [threeSource]⟩).toOption.isSome = true := by
    decide +kernel
  obtain ⟨p₁, made⟩ := Option.isSome_iff_exists.mp ends
  have lowered := okOfOption made
  have copied : Pass.identity.run ⟨[], [threeSource]⟩ = .ok ⟨[], [threeSource]⟩ :=
    okOfOption (by decide +kernel)
  obtain ⟨f₁, before, s', first, second, gives⟩ := runsBoth (k := 0) lowered copied rfl
  have agrees := functionAgrees (WellFormed.noViolation wellFormed List.mem_cons_self)
    (by decide +kernel) free gives
  refine ⟨wellFormed, free, p₁, _, f₁, _, lowered, copied, first, second, fun same => ?_⟩
  exact agrees.mp same _ List.mem_cons_self rfl

end Pick

end Functions

end FixedIL.Lowering
