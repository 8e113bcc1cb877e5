import FixedIL.Proofs.Naming
import FixedIL.Proofs.Numbering
import FixedIL.Proofs.PassRuns

/-!
Whole functions behind lowering: every block is the code of its instructions one behind the
other, with operands followed to what they became in the end.
-/
namespace FixedIL.Lowering

open Emit PassM

def located (s : PassState) (loc : Loc) : PassState :=
  { s with emission := { s.emission with loc := loc } }

inductive Trace (c : Config) (site : Site) : List Instr → PassState → PassState → Prop where
  | nil (s : PassState) : Trace c site [] s s
  | cons {i : Instr} {rest : List Instr} {x : Emit Unit} {names : List (TempId × Value)}
      {s mid s' : PassState}
      (unseen : Pass.repeatedResult? (located s i.loc) [] (i.results.map Temp.id) = none)
      (lowered : Lowered c site (s.operand site.encoding) i x names)
      (leads : Leads c site i (located s i.loc) x names mid) (tail : Trace c site rest mid s') :
      Trace c site (i :: rest) s s'

/-- A function under way, with what is known when it and the program are done: temporaries from
`reserved` on are fresh, and the frame slots and externs are all there are. -/
structure Setting where
  config : Config
  site : Site
  reserved : Nat
  slots : List FrameSlot
  externs : List Extern

inductive Segment (k : Setting) (i : Instr) : List Instr → Prop where
  | written {σ : Value → Value} {x : Emit Unit} {names : List (TempId × Value)} {e : Emission}
      (lowered : Lowered k.config k.site σ i x names) (reserved : k.reserved ≤ e.nextTemp.toNat)
      (inside : Below k.reserved i)
      (below : ∀ v ∈ i.operands, ∀ id, σ v = .temp id → id.toNat < k.reserved)
      (admitted : ∀ j ∈ x.written e, admits i.op j.op = true)
      (retypes : ∀ j ∈ x.written e, ∀ t ∈ j.results,
        k.reserved ≤ t.id.toNat ∨ Retypes k.config k.site i t)
      (settles : Settles k.site σ)
      (framed : k.site.function.slots.length ≤ e.slots.length)
      (slots : (x.run e).2.slots <+: k.slots)
      (linked : i.op = .call → Linked k.config k.site k.externs i.callee) :
      Segment k i (x.written e)

inductive Segments (k : Setting) : List Instr → List Instr → Prop where
  | nil : Segments k [] []
  | cons {i : Instr} {rest code code' : List Instr} (head : Segment k i code)
      (tail : Segments k rest code') : Segments k (i :: rest) (code ++ code')

structure Held (k : Setting) (s : PassState) : Prop where
  named : Named k.reserved s
  entered : Entered k.site s
  framed : k.site.function.slots.length ≤ s.emission.slots.length

structure Inside (k : Setting) (i : Instr) : Prop where
  below : Below k.reserved i
  within : ∃ b ∈ k.site.function.blocks, i ∈ b.instrs

structure Ending (k : Setting) (ρ : Value → Value) : Prop where
  literal : ∀ x, (k.site.encoding.mapLiteral x).isTemp = false
  once : k.site.function.DefinesOnce
  follows : Follows k.reserved ρ
  settles : ∀ s, Entered k.site s → Settles k.site (ρ ∘ s.operand k.site.encoding)

section Traces

variable {c : Config} {site : Site} {k : Setting} {ρ : Value → Value} {i : Instr}
  {is : List Instr} {s s' : PassState}

theorem definedIdsCons (i : Instr) (is : List Instr) :
    definedIds (i :: is) = i.results.map Temp.id ++ definedIds is := by
  simp [definedIds, definedTemps]

theorem memDefinedIds {is : List Instr} (instr : i ∈ is) {id : TempId} (result : id ∈ i.resultIds) :
    id ∈ definedIds is := by
  obtain ⟨t, member, rfl⟩ := List.mem_map.mp result
  exact List.mem_map_of_mem (List.mem_flatMap.mpr ⟨i, instr, member⟩)

theorem traceEnters (trace : Trace c site is s s') : Enters (definedIds is) s s' := by
  induction trace with
  | nil s => exact entersNone rfl
  | cons unseen lowered leads tail ih =>
    rw [definedIdsCons]
    exact ((entersResults unseen lowered leads.values).append ih).carry rfl rfl

theorem traceExtends (trace : Trace c site is s s') : Extends s s' := (traceEnters trace).grows

theorem loweredSlots {σ : Value → Value} {x : Emit Unit} {names : List (TempId × Value)}
    (lowered : Lowered c site σ i x names) (e : Emission) : e.slots <+: (x.run e).2.slots := by
  obtain ⟨y, names', ts, -, composed, -, -⟩ := loweredComposed (ρ := id) (fun _ _ => rfl) lowered
  obtain ⟨code, count, adds⟩ := composedAdds composed e
  exact adds.slots

theorem traceNeeds (trace : Trace c site is s s') :
    s'.externs = (neededBy c site.program is).foldl addExtern s.externs := by
  induction trace with
  | nil s => rfl
  | @cons i rest x names s mid s' unseen lowered leads tail ih =>
    have both : neededBy c site.program (i :: rest) = _ := neededAppend [i] rest
    rw [ih, leads.externs, both, List.foldl_append]
    rfl

theorem traceGrows (trace : Trace c site is s s') :
    Declares c site.program s.externs s'.externs ∧ s.emission.slots <+: s'.emission.slots := by
  refine ⟨traceNeeds trace ▸ allAddedDeclare neededForeign, ?_⟩
  induction trace with
  | nil s => exact List.prefix_rfl
  | @cons i rest x names s mid s' unseen lowered leads tail ih =>
    have slots := loweredSlots lowered (located s i.loc).emission
    rw [← leads.emission] at slots
    exact List.IsPrefix.trans slots ih

theorem traceKnown (literal : ∀ x, (k.site.encoding.mapLiteral x).isTemp = false)
    (once : k.site.function.DefinesOnce) (trace : Trace k.config k.site is s s')
    (inside : ∀ i ∈ is, Inside k i) (named : Named k.reserved s) (entered : Entered k.site s) :
    Named k.reserved s' ∧ Entered k.site s' := by
  generalize config : k.config = c at trace
  generalize place : k.site = site at trace
  induction trace with
  | nil s =>
    subst place
    exact ⟨named, entered⟩
  | @cons i rest x names s mid s' unseen lowered leads tail ih =>
    subst config place
    obtain ⟨b, block, instr⟩ := (inside i List.mem_cons_self).within
    exact ih (fun i hi => inside i (List.mem_cons_of_mem _ hi))
      (namedStep literal named (inside i List.mem_cons_self).below lowered leads.values)
      (enteredStep once block instr entered lowered leads.values)

theorem heldStep {x : Emit Unit} {names : List (TempId × Value)} (ending : Ending k ρ)
    (held : Held k s) (inside : Inside k i)
    (lowered : Lowered k.config k.site (s.operand k.site.encoding) i x names)
    (values : s'.values = nameAll names s.values)
    (slots : s.emission.slots <+: s'.emission.slots) : Held k s' := by
  obtain ⟨b, block, instr⟩ := inside.within
  exact ⟨namedStep ending.literal held.named inside.below lowered values,
    enteredStep ending.once block instr held.entered lowered values,
    Nat.le_trans held.framed slots.length_le⟩

theorem traceHeld (ending : Ending k ρ) (trace : Trace k.config k.site is s s')
    (inside : ∀ i ∈ is, Inside k i) (held : Held k s) : Held k s' := by
  generalize config : k.config = c at trace
  generalize place : k.site = site at trace
  induction trace with
  | nil s => exact held
  | @cons i rest x names s mid s' unseen lowered leads tail ih =>
    subst config place
    refine ih (fun i hi => inside i (List.mem_cons_of_mem _ hi)) ?_
    have slots := loweredSlots lowered (located s i.loc).emission
    rw [← leads.emission] at slots
    exact heldStep ending held (inside _ List.mem_cons_self) lowered leads.values slots

theorem writtenAppended {α : Type} {x : Emit α} {e : Emission} {code : List Instr}
    (appended : (x.run e).2.code = e.code ++ code) : x.written e = code := by
  rw [written, appended, List.drop_left]

theorem sublistResults (i : Instr) : (definedResults i).Sublist (i.results.map Temp.id) := by
  unfold definedResults
  split
  · exact List.nil_sublist _
  · exact .refl _

theorem segmentWritten {x : Emit Unit} {names : List (TempId × Value)} {e e' : Emission}
    (ending : Ending k ρ) (held : Held k s) (inside : Inside k i)
    (lowered : Lowered k.config k.site (s.operand k.site.encoding) i x names)
    (framed : k.site.function.slots.length ≤ e.slots.length) (slots : e'.slots <+: k.slots)
    (linked : i.op = .call → Linked k.config k.site k.externs i.callee)
    (state : e' = (x.run e).2) :
    ∃ code count, e'.code = e.code ++ code ∧
      (definedIds code).length = count + (definedResults i).length ∧
      (e.nextTemp.toNat + count < UInt32.size → k.reserved ≤ e.nextTemp.toNat →
        e'.nextTemp.toNat = e.nextTemp.toNat + count ∧
        (definedIds code).Perm (freshIds e.nextTemp.toNat count ++ definedResults i) ∧
        ((∀ id ∈ definedResults i, ρ (.temp id) = .temp id) →
          Segment k i (code.map (Instr.rename ρ)))) := by
  subst state
  have below := inside.below
  obtain ⟨y, names', ts, lowered', composed, defined, retypes, -⟩ :=
    loweredComposed ending.follows.literals lowered
  obtain ⟨code, one⟩ := composedWrites composed e
  obtain ⟨code', count, adds⟩ := composedAdds composed e
  obtain rfl : code' = code := List.append_cancel_left (adds.added.symm.trans one.appended)
  refine ⟨code', count, one.appended, ?_, fun room reserved => ?_⟩
  · rw [definedIds, List.length_map, adds.size, ← defined, List.length_map]
  have old (t : Temp) (member : t ∈ ts) : t.id.toNat < e.nextTemp.toNat := by
    have result : t.id ∈ definedResults i := defined ▸ List.mem_map_of_mem member
    obtain ⟨u, source, same⟩ := List.mem_map.mp ((sublistResults i).subset result)
    rw [← same]
    exact Nat.lt_of_lt_of_le (below.results u source) reserved
  have counts : e.Counts e.nextTemp.toNat := fun _ => rfl
  have next := adds.counts _ counts old room
  have numbered := adds.numbered _ counts old (fitsBelow room)
  have perm := numbered.ids
  rw [defined] at perm
  refine ⟨next, perm, fun kept => ?_⟩
  have fixed (id : TempId) (member : id ∈ definedIds code') : ρ (.temp id) = .temp id := by
    rcases List.mem_append.mp (perm.subset member) with new | result
    · exact ending.follows.fresh id (Nat.le_trans reserved (memFreshIds (fitsBelow room) new).1)
    · exact kept id result
  -- Renaming keeps the ids that the code defines, so it may come ahead of the writing.
  have run := one.renamed fixed e.code
  have same : written y e = code'.map (Instr.rename ρ) :=
    writtenAppended (congrArg (fun r => r.2.code) run)
  have frame : (y.run e).2.slots = (x.run e).2.slots := congrArg (fun r => r.2.slots) run
  rw [← same]
  refine .written lowered' reserved below (fun v member k became => ?_) (fun j member => ?_)
    (fun j member t result => ?_) (ending.settles s held.entered) framed (frame ▸ slots) linked
  · cases mapped : s.operand _ v with
    | temp id =>
      refine ending.follows.below id k (operandBelow ending.literal held.named below member mapped) ?_
      rw [← mapped]
      exact became
    | _ =>
      rw [Function.comp, mapped, ending.follows.literals _ rfl] at became
      cases became
  · rw [same] at member
    obtain ⟨j, old, rfl⟩ := List.mem_map.mp member
    exact straightAdmits (adds.admitted j old)
  · rw [same] at member
    obtain ⟨j, written, rfl⟩ := List.mem_map.mp member
    obtain ⟨fresh, ids, all⟩ := numbered
    have among : t ∈ definedTemps code' := List.mem_flatMap.mpr ⟨j, written, result⟩
    rcases List.mem_append.mp (all.subset among) with new | asked
    · have id : t.id ∈ freshIds e.nextTemp.toNat count := ids ▸ List.mem_map_of_mem new
      exact .inl (Nat.le_trans reserved (memFreshIds (fitsBelow room) id).1)
    · exact .inr (retypes t asked)

theorem traceWritten (ending : Ending k ρ) (trace : Trace k.config k.site is s s')
    (inside : ∀ i ∈ is, Inside k i) (held : Held k s) (slots : s'.emission.slots <+: k.slots)
    (externs : s'.externs <+: k.externs)
    (kept : ∀ id, s'.values.lookup id = some (.temp id) → ρ (.temp id) = .temp id) :
    ∃ code count, s'.emission.code = s.emission.code ++ code ∧
      (definedIds code).length = count + (is.flatMap definedResults).length ∧
      (s.emission.nextTemp.toNat + count < UInt32.size →
        k.reserved ≤ s.emission.nextTemp.toNat →
        s'.emission.nextTemp.toNat = s.emission.nextTemp.toNat + count ∧
        (definedIds code).Perm
          (freshIds s.emission.nextTemp.toNat count ++ is.flatMap definedResults) ∧
        Segments k is (code.map (Instr.rename ρ))) := by
  generalize config : k.config = c at trace
  generalize place : k.site = site at trace
  /- The length of the code is known without room for its ids, and only the numbering needs it: so
  the count of the whole bounds the count of every part. -/
  induction trace with
  | nil s =>
    exact ⟨[], 0, (List.append_nil _).symm, rfl, fun _ _ => ⟨rfl, .nil, .nil⟩⟩
  | @cons i rest x names s mid s' unseen lowered leads tail ih =>
    subst config place
    have insideHead := inside i List.mem_cons_self
    obtain ⟨moreExterns, moreSlots⟩ := traceGrows tail
    have own := loweredSlots lowered (located s i.loc).emission
    rw [← leads.emission] at own
    obtain ⟨code, count, appended, size, head⟩ :=
      segmentWritten (e := (located s i.loc).emission) ending held insideHead lowered held.framed
        (moreSlots.trans slots)
        (fun call => linkedMore (leads.linked call) ((declaresMore moreExterns).trans externs))
        leads.emission
    obtain ⟨code', count', appended', size', rest⟩ :=
      ih (fun j hj => inside j (List.mem_cons_of_mem _ hj))
        (heldStep ending held insideHead lowered leads.values own) slots externs kept
    refine ⟨code ++ code', count + count', ?_, ?_, fun room reserved => ?_⟩
    · rw [appended', appended, List.append_assoc]
      rfl
    · rw [definedIdsAppend, List.length_append, size, size', List.flatMap_cons,
        List.length_append]
      omega
    · have nextStart : (located s i.loc).emission.nextTemp = s.emission.nextTemp := rfl
      rw [nextStart] at head
      obtain ⟨next, perm, segment⟩ := head (by omega) reserved
      obtain ⟨next', perm', segments⟩ := rest (by omega) (by omega)
      refine ⟨by omega, ?_, ?_⟩
      · rw [definedIdsAppend, List.flatMap_cons, ← freshIdsAppend]
        rw [next] at perm'
        exact numberedTwice perm perm'
      · rw [List.map_append]
        refine .cons (segment fun id member => kept id ?_) segments
        refine traceExtends tail id _ ?_
        rw [leads.values]
        exact definedKept unseen lowered member

theorem traceAdmits (trace : Trace c site is s s') :
    ∃ code, s'.emission.code = s.emission.code ++ code ∧
      ∀ j ∈ code, ∃ i ∈ is, admits i.op j.op = true := by
  induction trace with
  | nil s =>
    refine ⟨[], (List.append_nil _).symm, fun j hj => ?_⟩
    cases hj
  | @cons i rest x names s mid s' unseen lowered leads tail ih =>
    obtain ⟨y, names', ts, -, composed, -, -⟩ := loweredComposed (ρ := id) (fun _ _ => rfl) lowered
    obtain ⟨code, count, adds⟩ := composedAdds composed (located s i.loc).emission
    obtain ⟨code', appended, admitted⟩ := ih
    refine ⟨code ++ code', ?_, fun j hj => ?_⟩
    · rw [appended, leads.emission, adds.added, List.append_assoc]
      rfl
    · rcases List.mem_append.mp hj with hj | hj
      · exact ⟨i, List.mem_cons_self, straightAdmits (adds.admitted j hj)⟩
      · obtain ⟨i, member, admits⟩ := admitted j hj
        exact ⟨i, List.mem_cons_of_mem _ member, admits⟩

end Traces

def keptIds (b : Block) : List TempId := b.params.map Temp.id ++ b.instrs.flatMap definedResults

def cleared (s : PassState) : PassState := { s with emission := { s.emission with code := [] } }

def mappedParams (site : Site) (b : Block) : List Temp :=
  b.params.map fun t => { t with type := site.encoding.mapTy t.type }

inductive BlocksTrace (c : Config) (site : Site) :
    List Block → PassState → List Block → PassState → Prop where
  | nil (s : PassState) : BlocksTrace c site [] s [] s
  | cons {b : Block} {rest converted : List Block} {s mid s' : PassState}
      (trace : Trace c site b.instrs (cleared s) mid)
      (tail : BlocksTrace c site rest mid converted s') :
      BlocksTrace c site (b :: rest) s (⟨b.label, mappedParams site b, mid.emission.code⟩ :: converted) s'

inductive LoweredBlocks (k : Setting) : List Block → List Block → Prop where
  | nil : LoweredBlocks k [] []
  | cons {b : Block} {code : List Instr} {rest converted : List Block}
      (head : Segments k b.instrs code) (tail : LoweredBlocks k rest converted) :
      LoweredBlocks k (b :: rest) (⟨b.label, mappedParams k.site b, code⟩ :: converted)

def blockTemps (bs : List Block) : List TempId := (bs.flatMap Block.temps).map Temp.id

section Blocks

variable {c : Config} {site : Site} {k : Setting} {ρ : Value → Value} {bs bs' : List Block}
  {s s' : PassState}

def renamedBlock (ρ : Value → Value) (b : Block) : Block :=
  { b with instrs := b.instrs.map (Instr.rename ρ) }

theorem blocksNeed (trace : BlocksTrace c site bs s bs' s') :
    s'.externs = (neededBy c site.program (bs.flatMap Block.instrs)).foldl addExtern s.externs := by
  induction trace with
  | nil s => rfl
  | cons trace tail ih =>
    rw [ih, traceNeeds trace, List.flatMap_cons, neededAppend, List.foldl_append]
    rfl

theorem blocksGrow (trace : BlocksTrace c site bs s bs' s') :
    Declares c site.program s.externs s'.externs ∧ s.emission.slots <+: s'.emission.slots := by
  induction trace with
  | nil s => exact ⟨declaresNone, List.prefix_rfl⟩
  | cons trace tail ih =>
    obtain ⟨externs, slots⟩ := traceGrows trace
    exact ⟨declaresTrans externs ih.1, List.IsPrefix.trans slots ih.2⟩

theorem blocksEnter (trace : BlocksTrace c site bs s bs' s') :
    Enters (bs.flatMap fun b => definedIds b.instrs) s s' := by
  induction trace with
  | nil s => exact entersNone rfl
  | cons trace tail ih =>
    rw [List.flatMap_cons]
    exact ((traceEnters trace).append ih).carry rfl rfl

theorem blocksExtend (trace : BlocksTrace c site bs s bs' s') : Extends s s' :=
  (blocksEnter trace).grows

theorem blocksKnown (literal : ∀ x, (k.site.encoding.mapLiteral x).isTemp = false)
    (once : k.site.function.DefinesOnce) (trace : BlocksTrace k.config k.site bs s bs' s')
    (inside : ∀ b ∈ bs, ∀ i ∈ b.instrs, Inside k i) (named : Named k.reserved s)
    (entered : Entered k.site s) : Named k.reserved s' ∧ Entered k.site s' := by
  generalize config : k.config = c at trace
  generalize place : k.site = site at trace
  induction trace with
  | nil s =>
    subst place
    exact ⟨named, entered⟩
  | cons trace tail ih =>
    subst config place
    obtain ⟨named', entered'⟩ := traceKnown literal once trace (inside _ List.mem_cons_self)
      ⟨named.keys, named.temps⟩ entered
    exact ih (fun b hb => inside b (List.mem_cons_of_mem _ hb)) named' entered'

theorem blockTempsCons (b : Block) (bs : List Block) :
    blockTemps (b :: bs) = b.params.map Temp.id ++ (definedIds b.instrs ++ blockTemps bs) := by
  simp [blockTemps, Block.temps, definedIds, definedTemps]

theorem definedIdsRename (code : List Instr) :
    definedIds (code.map (Instr.rename ρ)) = definedIds code := by
  simp [definedIds, definedTemps, List.flatMap_map, Instr.rename]

theorem mappedParamsIds (site : Site) (b : Block) :
    (mappedParams site b).map Temp.id = b.params.map Temp.id := by
  simp [mappedParams]

theorem blocksWritten (ending : Ending k ρ) (trace : BlocksTrace k.config k.site bs s bs' s')
    (inside : ∀ b ∈ bs, ∀ i ∈ b.instrs, Inside k i) (held : Held k s)
    (slots : s'.emission.slots <+: k.slots) (externs : s'.externs <+: k.externs)
    (kept : ∀ id, s'.values.lookup id = some (.temp id) → ρ (.temp id) = .temp id) :
    ∃ count, (blockTemps (bs'.map (renamedBlock ρ))).length = count + (bs.flatMap keptIds).length ∧
      (s.emission.nextTemp.toNat + count < UInt32.size →
        k.reserved ≤ s.emission.nextTemp.toNat →
        (blockTemps (bs'.map (renamedBlock ρ))).Perm
          (freshIds s.emission.nextTemp.toNat count ++ bs.flatMap keptIds) ∧
        LoweredBlocks k bs (bs'.map (renamedBlock ρ))) := by
  generalize config : k.config = c at trace
  generalize place : k.site = site at trace
  induction trace with
  | nil s => exact ⟨0, rfl, fun _ _ => ⟨.nil, .nil⟩⟩
  | @cons b rest converted s mid s' trace tail ih =>
    subst config place
    have insideHead := inside b List.mem_cons_self
    have heldStart : Held k (cleared s) :=
      ⟨⟨held.named.keys, held.named.temps⟩, held.entered, held.framed⟩
    obtain ⟨moreExterns, moreSlots⟩ := blocksGrow tail
    obtain ⟨code, count, appended, size, head⟩ :=
      traceWritten ending trace insideHead heldStart (moreSlots.trans slots)
        ((declaresMore moreExterns).trans externs) fun id same => kept id (blocksExtend tail id _ same)
    have code' : mid.emission.code = code := appended
    obtain ⟨count', size', tailWritten⟩ :=
      ih (fun b hb => inside b (List.mem_cons_of_mem _ hb))
        (traceHeld ending trace insideHead heldStart) slots externs kept
    refine ⟨count + count', ?_, fun room reserved => ?_⟩
    · rw [List.map_cons, blockTempsCons]
      simp only [renamedBlock, definedIdsRename, List.length_append, code', size, size', keptIds,
        List.flatMap_cons, mappedParamsIds, List.length_map]
      omega
    · have nextStart : (cleared s).emission.nextTemp = s.emission.nextTemp := rfl
      rw [nextStart] at head
      obtain ⟨next, perm, segments⟩ := head (by omega) reserved
      obtain ⟨perm', lowered⟩ := tailWritten (by omega) (by omega)
      refine ⟨?_, ?_⟩
      · rw [List.map_cons, blockTempsCons, List.flatMap_cons, keptIds, ← freshIdsAppend]
        simp only [renamedBlock, definedIdsRename, code', mappedParamsIds]
        rw [next] at perm'
        have params : (b.params.map Temp.id).Perm ([] ++ b.params.map Temp.id) := .refl _
        have own := numberedTwice params (numberedTwice perm perm')
        simpa only [List.nil_append, List.append_assoc] using own
      · rw [List.map_cons]
        simp only [renamedBlock, code']
        exact .cons segments lowered

theorem blocksAdmit (trace : BlocksTrace c site bs s bs' s') :
    ∀ b' ∈ bs', ∀ j ∈ b'.instrs, ∃ b ∈ bs, ∃ i ∈ b.instrs, admits i.op j.op = true := by
  induction trace with
  | nil s =>
    intro b' none
    cases none
  | @cons b rest converted s mid s' trace tail ih =>
    intro b' member j instr
    rcases List.mem_cons.mp member with rfl | member
    · obtain ⟨code, appended, admitted⟩ := traceAdmits trace
      have same : mid.emission.code = code := appended
      obtain ⟨i, source, admits⟩ := admitted j (same ▸ instr)
      exact ⟨b, List.mem_cons_self, i, source, admits⟩
    · obtain ⟨b, source, rest⟩ := ih b' member j instr
      exact ⟨b, List.mem_cons_of_mem _ source, rest⟩

end Blocks

section Conversion

variable {c : Config} {p : Program} {f : Function} {s s' : PassState} {n : Nat}

theorem passInstrGives {i : Instr} {u : Unit} (steady : Steady c ((pass c).site p f) s)
    (gives : ((pass c).instr ((pass c).site p f) i).Gives s u s') :
    Steady c ((pass c).site p f) s' ∧
      ∃ x names, Pass.repeatedResult? (located s i.loc) [] (i.results.map Temp.id) = none ∧
        Lowered c ((pass c).site p f) (s.operand ((pass c).site p f).encoding) i x names ∧
        Leads c ((pass c).site p f) i (located s i.loc) x names s' := by
  simp only [Pass.instr, givesBind, givesEmit, givesGet] at gives
  obtain ⟨_, _, ⟨-, rfl⟩, _, _, ⟨rfl, rfl⟩, gives⟩ := gives
  split at gives
  · cases givesMalformed gives
  · rename_i unseen
    have steady' : Steady c ((pass c).site p f) (located s i.loc) :=
      steady.carry rfl rfl rfl rfl
    obtain ⟨x, names, lowered, leads⟩ := instrGives steady' gives
    exact ⟨leads.steady, x, names, unseen, lowered, leads⟩

theorem passInstrsGives {is : List Instr} {u : Unit} (steady : Steady c ((pass c).site p f) s)
    (gives : ((pass c).instrs ((pass c).site p f) is).Gives s u s') :
    Steady c ((pass c).site p f) s' ∧ Trace c ((pass c).site p f) is s s' := by
  induction is generalizing s with
  | nil =>
    obtain ⟨-, rfl⟩ := givesPure.mp gives
    exact ⟨steady, .nil s'⟩
  | cons i rest ih =>
    simp only [Pass.instrs, givesBind] at gives
    obtain ⟨_, mid, head, tail⟩ := gives
    obtain ⟨steady', x, names, unseen, lowered, leads⟩ := passInstrGives steady head
    obtain ⟨steady'', trace⟩ := ih steady' tail
    exact ⟨steady'', .cons unseen lowered leads trace⟩

theorem passBlocksGive {bs bs' : List Block} (steady : Steady c ((pass c).site p f) s)
    (gives : (bs.mapM ((pass c).block ((pass c).site p f))).Gives s bs' s') :
    Steady c ((pass c).site p f) s' ∧ BlocksTrace c ((pass c).site p f) bs s bs' s' := by
  induction bs generalizing s bs' with
  | nil =>
    obtain ⟨rfl, rfl⟩ := givesPure.mp gives
    exact ⟨steady, .nil s'⟩
  | cons b rest ih =>
    rw [List.mapM_cons] at gives
    simp only [Pass.block, givesBind, givesEmit, givesGet, givesPure] at gives
    obtain ⟨_, mid, ⟨_, _, ⟨-, rfl⟩, _, _, converted, _, _, ⟨rfl, rfl⟩, rfl, rfl⟩,
      _, _, tail, rfl, rfl⟩ := gives
    have steady' : Steady c ((pass c).site p f) (cleared s) := steady.carry rfl rfl rfl rfl
    obtain ⟨converted, trace⟩ := passInstrsGives steady' converted
    obtain ⟨last, traces⟩ := ih converted tail
    exact ⟨last, .cons trace traces⟩

/-- Before the first block is converted only parameters have become something, and nothing is
written. -/
structure Opened (c : Config) (site : Site) (n : Nat) (start s : PassState) : Prop where
  steady : Steady c site s
  named : Named n s
  entered : site.function.DefinesOnce → Entered site s
  emission : s.emission = start.emission
  externs : s.externs = start.externs

section Opening

variable {site : Site} {start : PassState}

theorem openedMapped {id : TempId} (opened : Opened c site n start s) (inside : id.toNat < n)
    (plain : site.function.DefinesOnce → ¬ IsCast site.function id) :
    Opened c site n start (s.mapValue id (.temp id)) := by
  have finds {other : TempId} {w : Value}
      (found : (s.mapValue id (.temp id)).values.lookup other = some w) :
      s.values.lookup other = some w ∨ (other, w) ∈ [(id, .temp id)] := nameAllFinds found
  refine ⟨opened.steady.carry rfl rfl rfl rfl, ⟨fun other v found => ?_, fun other k found => ?_⟩,
    fun once other w found => ?_, opened.emission, opened.externs⟩
  · rcases finds found with old | new
    · exact opened.named.keys other v old
    · cases List.mem_singleton.mp new
      exact inside
  · rcases finds found with old | new
    · exact opened.named.temps other k old
    · cases List.mem_singleton.mp new
      exact inside
  · rcases finds found with old | new
    · exact opened.entered once other w old
    · cases List.mem_singleton.mp new
      exact .inl ⟨rfl, plain once⟩

theorem paramsOpened {b : Block} {ts : List Temp} {u : Unit} (opened : Opened c site n start s)
    (inside : ∀ t ∈ ts, t.id.toNat < n)
    (plain : ∀ t ∈ ts, site.function.DefinesOnce → ¬ IsCast site.function t.id)
    (gives : (Pass.defineParams f b ts).Gives s u s') : Opened c site n start s' := by
  induction ts generalizing s with
  | nil =>
    obtain ⟨-, rfl⟩ := givesPure.mp gives
    exact opened
  | cons t rest ih =>
    simp only [Pass.defineParams, givesBind, givesGet, givesIte, givesFail, and_false, false_or,
      givesMapValue] at gives
    obtain ⟨_, s, ⟨rfl, rfl⟩, -, _, _, rfl, gives⟩ := gives
    have first := openedMapped opened (inside t List.mem_cons_self) (plain t List.mem_cons_self)
    exact ih first (fun u hu => inside u (List.mem_cons_of_mem _ hu))
      (fun u hu => plain u (List.mem_cons_of_mem _ hu)) gives

theorem blocksOpened {bs : List Block} {u : Unit} (opened : Opened c site n start s)
    (within : ∀ b ∈ bs, b ∈ site.function.blocks)
    (inside : ∀ b ∈ bs, ∀ t ∈ b.params, t.id.toNat < n)
    (gives : (Pass.openBlocks f bs).Gives s u s') : Opened c site n start s' := by
  induction bs generalizing s with
  | nil =>
    obtain ⟨-, rfl⟩ := givesPure.mp gives
    exact opened
  | cons b rest ih =>
    simp only [Pass.openBlocks, givesBind, givesModify] at gives
    obtain ⟨_, mid, params, _, _, rfl, gives⟩ := gives
    have opened' := paramsOpened opened (inside b List.mem_cons_self)
      (fun t ht once => paramNoCast once (within b List.mem_cons_self) ht) params
    have labelled : Opened c site n start (mid.mapLabel b.label b.label) :=
      ⟨⟨keyedEntries opened'.steady.labels b.label, opened'.steady.slots,
        opened'.steady.targets⟩,
        ⟨opened'.named.keys, opened'.named.temps⟩, opened'.entered, opened'.emission,
        opened'.externs⟩
    exact ih labelled (fun b hb => within b (List.mem_cons_of_mem _ hb))
      (fun b hb => inside b (List.mem_cons_of_mem _ hb)) gives

theorem slotsOpened (slots : List Nat) (opened : Opened c site n start s) :
    Opened c site n start (slots.foldl (fun s k => s.mapSlot k.toUInt32 k.toUInt32) s) := by
  induction slots generalizing s with
  | nil => exact opened
  | cons k rest ih =>
    refine ih ?_
    exact ⟨⟨opened.steady.labels, keyedEntries opened.steady.slots _, opened.steady.targets⟩,
      ⟨opened.named.keys, opened.named.temps⟩, opened.entered, opened.emission, opened.externs⟩

theorem paramsEnter {b : Block} {ts : List Temp} {u : Unit}
    (gives : (Pass.defineParams f b ts).Gives s u s') : Enters (ts.map Temp.id) s s' := by
  induction ts generalizing s with
  | nil =>
    obtain ⟨-, rfl⟩ := givesPure.mp gives
    exact entersNone rfl
  | cons t rest ih =>
    simp only [Pass.defineParams, givesBind, givesGet, givesIte, givesFail, and_false, false_or,
      givesMapValue] at gives
    obtain ⟨_, s, ⟨rfl, rfl⟩, new, _, _, rfl, gives⟩ := gives
    have here : Enters [t.id] s (s.mapValue t.id (.temp t.id)) :=
      entersOne (by simpa only [PassState.isMapped, Bool.not_eq_true, Option.isSome_eq_false_iff,
        Option.isNone_iff_eq_none] using new)
    exact here.append (ih gives)

theorem blockParamsEnter {bs : List Block} {u : Unit}
    (gives : (Pass.openBlocks f bs).Gives s u s') :
    Enters (bs.flatMap fun b => b.params.map Temp.id) s s' := by
  induction bs generalizing s with
  | nil =>
    obtain ⟨-, rfl⟩ := givesPure.mp gives
    exact entersNone rfl
  | cons b rest ih =>
    simp only [Pass.openBlocks, givesBind, givesModify] at gives
    obtain ⟨_, mid, params, _, _, rfl, gives⟩ := gives
    exact (paramsEnter params).append ((ih gives).carry rfl rfl)

theorem slotsValues (slots : List Nat) (s : PassState) :
    (slots.foldl (fun s k => s.mapSlot k.toUInt32 k.toUInt32) s).values = s.values := by
  induction slots generalizing s with
  | nil => rfl
  | cons k rest ih => exact ih _

end Opening

theorem keptSublist (bs : List Block) : (bs.flatMap keptIds).Sublist (blockTemps bs) := by
  have inside (is : List Instr) : (is.flatMap definedResults).Sublist (definedIds is) := by
    induction is with
    | nil => exact .refl _
    | cons i rest ih =>
      rw [List.flatMap_cons, ← List.singleton_append, definedIdsAppend]
      refine List.Sublist.append ?_ ih
      simpa [definedIds, definedTemps] using sublistResults i
  induction bs with
  | nil => exact .refl _
  | cons b rest ih =>
    rw [List.flatMap_cons, blockTempsCons, keptIds, List.append_assoc]
    exact (List.Sublist.refl _).append ((inside b.instrs).append ih)

/-- The last id is not used ahead of lowering, and behind it there is an id for everything
that is defined: ids are 32 bits wide. -/
structure Roomy (f f' : Function) : Prop where
  source : ∀ t ∈ f.temps, t.id.toNat + 1 < UInt32.size
  target : f.nextTemp.toNat + f'.temps.length < UInt32.size

structure LoweredFunction (c : Config) (p : Program) (externs : List Extern) (f f' : Function) :
    Prop where
  name : f'.name = f.name
  slots : f.slots <+: f'.slots
  blocks : LoweredBlocks ⟨c, (pass c).site p f, f.nextTemp.toNat, f'.slots, externs⟩
    f.blocks f'.blocks
  once : f'.DefinesOnce
  inside : ∀ t ∈ f'.temps, t.id.toNat < f'.nextTemp.toNat
  keeps : ∀ t ∈ f.temps, ¬ IsCast f t.id → ∃ t' ∈ f'.temps, t'.id = t.id

theorem noCastKept (sound : f.violation? p = none) {t : Temp} (member : t ∈ f.temps)
    (other : ¬ IsCast f t.id) : t.id ∈ f.blocks.flatMap keptIds := by
  obtain ⟨b, block, defined⟩ := List.mem_flatMap.mp member
  refine List.mem_flatMap.mpr ⟨b, block, ?_⟩
  rcases List.mem_append.mp defined with param | result
  · exact List.mem_append_left _ (List.mem_map_of_mem param)
  · obtain ⟨i, instr, result⟩ := List.mem_flatMap.mp result
    refine List.mem_append_right _ (List.mem_flatMap.mpr ⟨i, instr, ?_⟩)
    by_cases cast : sameNumberCast i.op = true
    · exact absurd (castResult sound block instr cast (List.mem_map_of_mem result)) other
    · rw [definedResults, if_neg cast]
      exact List.mem_map_of_mem result

theorem reservedAll {e : Emission} {id : TempId} (first : e.nextTemp = 0) :
    ((reserveBelow id).run e).2.nextTemp = id ∧ ((reserveBelow id).run e).2.slots = e.slots := by
  change (if e.nextTemp < id then { e with nextTemp := id } else e).nextTemp = id ∧
    (if e.nextTemp < id then { e with nextTemp := id } else e).slots = e.slots
  split
  · exact ⟨rfl, rfl⟩
  · rename_i none
    rw [first] at none ⊢
    have empty : ¬ 0 < id.toNat := fun positive => none (UInt32.lt_iff_toNat_lt.mpr positive)
    exact ⟨(UInt32.toNat_inj.mp (Nat.eq_zero_of_not_pos empty)).symm, rfl⟩

/-- How a function is converted: from a state in which fresh ids start above those of the
source, block by block, with what operands have become followed at the end. -/
structure Converts (c : Config) (p : Program) (f : Function) (n : Nat) (externs : List Extern)
    (sig : Signature) (f' : Function) (s' : PassState) (start : PassState) (bs : List Block) :
    Prop where
  steady : Steady c ((pass c).site p f) s'
  named : Named n start
  entered : f.DefinesOnce → Entered ((pass c).site p f) start
  opened : ∃ blank, Enters (f.blocks.flatMap fun b => b.params.map Temp.id) blank start
  next : start.emission.nextTemp = f.nextTemp
  framed : start.emission.slots = f.slots
  externs : s'.externs = (neededBy c p f.code).foldl addExtern externs
  trace : BlocksTrace c ((pass c).site p f) f.blocks start bs s'
  name : f'.name = f.name
  sig : f'.sig = sig
  valueNames : f'.valueNames = f.valueNames
  slots : f'.slots = s'.emission.slots
  blocks : f'.blocks = bs.map (renamedBlock (Pass.resolve s' (pass c).encoding f.nextTemp.toNat))

theorem functionConverts {f' : Function} {externs : List Extern} {sig : Signature}
    (params : ∀ b ∈ f.blocks, ∀ t ∈ b.params, t.id.toNat < n)
    (gives : ((pass c).function p f sig).Gives (Pass.begun externs) f' s') :
    ∃ start bs, Converts c p f n externs sig f' s' start bs := by
  simp only [Pass.function, Pass.openSlots, givesBind, givesModify, givesEmit, givesGet,
    givesPure] at gives
  obtain ⟨_, opened, blocks, _, _, ⟨_, _, rfl, -, rfl⟩, _, _, ⟨-, rfl⟩, bs, _, converted, _, _,
    ⟨rfl, rfl⟩, rfl, rfl⟩ := gives
  have blank : Opened c ((pass c).site p f) n (Pass.begun externs) (Pass.begun externs) :=
    ⟨⟨by rintro _ _ ⟨⟩, by rintro _ _ ⟨⟩, by rintro _ _ ⟨⟩⟩, ⟨by rintro _ _ ⟨⟩, by rintro _ _ ⟨⟩⟩,
      by rintro _ _ _ ⟨⟩, rfl, rfl⟩
  have opened' := blocksOpened blank (fun b hb => hb) params blocks
  have opened'' := slotsOpened (List.range f.slots.length) opened'
  have enters := blockParamsEnter blocks
  have values := slotsValues (List.range f.slots.length) opened
  generalize (List.range f.slots.length).foldl _ opened = numbered at *
  have first : numbered.emission.nextTemp = 0 := congrArg Emission.nextTemp opened''.emission
  let framing : Emission := { numbered.emission with slots := f.slots }
  have begun : ((reserveBelow f.nextTemp).run framing).2.nextTemp = f.nextTemp ∧
      ((reserveBelow f.nextTemp).run framing).2.slots = f.slots := reservedAll first
  obtain ⟨next, framed⟩ := begun
  let start : PassState := { numbered with emission := ((reserveBelow f.nextTemp).run framing).2 }
  have steady : Steady c ((pass c).site p f) start := opened''.steady.carry rfl rfl rfl rfl
  obtain ⟨steady', trace⟩ := passBlocksGive steady converted
  have needs : s'.externs = (neededBy c p f.code).foldl addExtern start.externs := blocksNeed trace
  have before : start.externs = externs := opened''.externs
  have entered : Enters _ _ start := enters.append (entersNone values)
  rw [List.append_nil] at entered
  exact ⟨start, bs, steady', ⟨opened''.named.keys, opened''.named.temps⟩, opened''.entered,
    ⟨_, entered⟩, next, framed, before ▸ needs, trace, rfl, rfl, rfl, rfl, rfl⟩

theorem convertsAny {f' : Function} {externs : List Extern} {sig : Signature}
    (gives : ((pass c).function p f sig).Gives (Pass.begun externs) f' s') :
    ∃ start bs, Converts c p f UInt32.size externs sig f' s' start bs :=
  functionConverts (fun _ _ t _ => UInt32.toNat_lt_size t.id) gives

theorem convertsNext {f' : Function} {externs : List Extern} {sig : Signature}
    (source : ∀ t ∈ f.temps, t.id.toNat + 1 < UInt32.size)
    (gives : ((pass c).function p f sig).Gives (Pass.begun externs) f' s') :
    ∃ start bs, Converts c p f f.nextTemp.toNat externs sig f' s' start bs :=
  functionConverts (fun _ block t param => Function.tempBelowNext (Function.memParams block param)
    (source t (Function.memParams block param))) gives

section Converted

variable {f' : Function} {start : PassState} {bs : List Block} {sig : Signature}
  {before : List Extern} (sound : f.violation? p = none)
  (source : ∀ t ∈ f.temps, t.id.toNat + 1 < UInt32.size)

include sound source

theorem belowNext {b : Block} (block : b ∈ f.blocks) {i : Instr} (instr : i ∈ b.instrs) :
    Below f.nextTemp.toNat i := by
  have inside (t : Temp) (member : t ∈ f.temps) : t.id.toNat < f.nextTemp.toNat :=
    Function.tempBelowNext member (source t member)
  refine ⟨fun t result => inside t (Function.memTemps block instr result), fun id member => ?_⟩
  obtain ⟨t, defined, rfl⟩ := WellFormed.operandDefined sound block instr member
  exact inside t defined

theorem convertsComplete (converts : Converts c p f f.nextTemp.toNat before sig f' s' start bs) :
    Complete ((pass c).site p f) f.nextTemp.toNat s' := by
  let k : Setting := ⟨c, (pass c).site p f, f.nextTemp.toNat, [], []⟩
  have once := WellFormed.definesOnce sound
  have trace : BlocksTrace k.config k.site f.blocks start bs s' := converts.trace
  obtain ⟨named, entered⟩ := blocksKnown (k := k) (fun _ => rfl) once trace
    (fun b block i instr => ⟨belowNext sound source block instr, b, block, instr⟩)
    converts.named (converts.entered once)
  refine ⟨named, entered, fun id cast => ?_⟩
  obtain ⟨v, b, block, i, instr, -, -, result⟩ := cast
  refine (blocksEnter trace).entered id (List.mem_flatMap.mpr ⟨b, block, ?_⟩)
  exact memDefinedIds instr (result ▸ List.mem_singleton_self id)

end Converted

theorem functionGives {f' : Function} {start : PassState} {bs : List Block} {sig : Signature}
    {before externs : List Extern} (sound : f.violation? p = none) (room : Roomy f f')
    (converts : Converts c p f f.nextTemp.toNat before sig f' s' start bs)
    (later : s'.externs <+: externs) : LoweredFunction c p externs f f' := by
  have once := WellFormed.definesOnce sound
  have inside (t : Temp) (member : t ∈ f.temps) : t.id.toNat < f.nextTemp.toNat :=
    Function.tempBelowNext member (room.source t member)
  let k : Setting := ⟨c, (pass c).site p f, f.nextTemp.toNat, f'.slots, externs⟩
  have literal (x : Float) : (k.site.encoding.mapLiteral x).isTemp = false := rfl
  have trace : BlocksTrace k.config k.site f.blocks start bs s' := converts.trace
  have within (b : Block) (hb : b ∈ f.blocks) (i : Instr) (hi : i ∈ b.instrs) : Inside k i :=
    ⟨belowNext sound room.source hb hi, b, hb, hi⟩
  have held : Held k start :=
    ⟨converts.named, converts.entered once, Nat.le_of_eq (congrArg List.length converts.framed.symm)⟩
  have complete : Complete k.site k.reserved s' := convertsComplete sound room.source converts
  have ending : Ending k (Pass.resolve s' k.site.encoding k.reserved) :=
    ⟨literal, once, resolveFollows complete.named _,
      fun s entered => resolveSettles literal entered complete⟩
  obtain ⟨count, size, written⟩ := blocksWritten ending trace within held
    (converts.slots ▸ List.prefix_rfl) later
    fun id same => resolveFixed _ (by simp [PassState.operand, same])
  have temps : f'.temps.map Temp.id = blockTemps f'.blocks := rfl
  have next := converts.next
  have blocks := converts.blocks
  have enough : count ≤ f'.temps.length := by
    rw [← List.length_map Temp.id, temps, blocks]
    exact Nat.le_trans (Nat.le_add_right ..) (Nat.le_of_eq size.symm)
  have target := room.target
  obtain ⟨perm, lowered⟩ := written (by rw [next]; omega)
    (Nat.le_of_eq (congrArg UInt32.toNat next.symm))
  rw [next] at perm
  have kept (id : TempId) (member : id ∈ f.blocks.flatMap keptIds) :
      ∃ t ∈ f.temps, t.id = id := List.mem_map.mp ((keptSublist f.blocks).subset member)
  refine ⟨converts.name, ?_, blocks ▸ lowered, ?_, ?_, fun t member other => ?_⟩
  · rw [converts.slots, ← converts.framed]
    exact (blocksGrow trace).2
  · rw [Function.DefinesOnce, temps, blocks]
    refine perm.nodup_iff.mpr (List.nodup_append.mpr ⟨freshIdsOnce (fitsBelow (by omega)), ?_, ?_⟩)
    · exact once.sublist (keptSublist f.blocks)
    · rintro id new _ old rfl
      obtain ⟨t, member, same⟩ := kept id old
      have above := (memFreshIds (fitsBelow (by omega)) new).1
      have under := inside t member
      rw [same] at under
      omega
  · intro t member
    refine Function.tempBelowNext member ?_
    have among : t.id ∈ blockTemps f'.blocks := List.mem_map_of_mem member
    rw [blocks] at among
    rcases List.mem_append.mp (perm.subset among) with new | old
    · have bound := (memFreshIds (fitsBelow (by omega)) new).2
      omega
    · obtain ⟨u, source, same⟩ := kept t.id old
      rw [← same]
      exact room.source u source
  · have among : t.id ∈ blockTemps f'.blocks := by
      rw [blocks]
      exact perm.mem_iff.mpr (List.mem_append_right _ (noCastKept sound member other))
    exact List.mem_map.mp among

structure LoweredProgram (c : Config) (p p' : Program) : Prop where
  supported : c.format.isSupported = true
  functions : List.Forall₂ (LoweredFunction c p p'.externs) p.functions p'.functions
  kept : p.externs.filter (fun e => !e.sig.mentionsFloat) <+: p'.externs
  foreign : ∀ e ∈ p'.externs, Foreign c p e

theorem runTrace {p' : Program} (run : (pass c).run p = .ok p') :
    c.format.isSupported = true ∧
      Pass.Runs (pass c) p p.functions (p.externs.filter fun e => !e.sig.mentionsFloat)
        p'.functions p'.externs := by
  obtain ⟨externs, kept, runs⟩ := Pass.runGives.mp run
  change keepExterns c.format p = .ok externs at kept
  unfold keepExterns at kept
  split at kept
  · cases kept
    exact ⟨‹_›, runs⟩
  · cases kept

theorem functionsNeed {fs fs' : List Function} {externs externs' : List Extern}
    (trace : Pass.Runs (pass c) p fs externs fs' externs') :
    externs' = (neededBy c p (fs.flatMap Function.code)).foldl addExtern externs := by
  induction trace with
  | nil externs => rfl
  | cons gives tail ih =>
    obtain ⟨start, bs, converts⟩ := convertsAny gives
    rw [ih, converts.externs, List.flatMap_cons, neededAppend, List.foldl_append]

theorem functionsDeclare {fs fs' : List Function} {externs externs' : List Extern}
    (trace : Pass.Runs (pass c) p fs externs fs' externs') : Declares c p externs externs' :=
  functionsNeed trace ▸ allAddedDeclare neededForeign

theorem functionsGive {fs fs' : List Function} {externs externs' final : List Extern}
    (trace : Pass.Runs (pass c) p fs externs fs' externs') (later : externs' <+: final)
    (sound : ∀ f ∈ fs, f.violation? p = none)
    (room : ∀ f ∈ fs, ∀ f' ∈ fs', f'.name = f.name → Roomy f f') :
    List.Forall₂ (LoweredFunction c p final) fs fs' := by
  induction trace with
  | nil externs => exact .nil
  | @cons f f' rest converted externs externs' s' gives tail ih =>
    have soundHead := sound f List.mem_cons_self
    obtain ⟨start, bs, any⟩ := convertsAny gives
    have roomy := room f List.mem_cons_self f' List.mem_cons_self any.name
    obtain ⟨start, bs, converts⟩ := convertsNext roomy.source gives
    have more := declaresMore (functionsDeclare tail)
    refine .cons (functionGives soundHead roomy converts (more.trans later)) ?_
    exact ih later (fun f hf => sound f (List.mem_cons_of_mem _ hf))
      fun f hf f' hf' => room f (List.mem_cons_of_mem _ hf) f' (List.mem_cons_of_mem _ hf')

theorem keptForeign : ∀ e ∈ p.externs.filter (fun e => !e.sig.mentionsFloat), Foreign c p e := by
  intro e member
  obtain ⟨source, floatFree⟩ := List.mem_filter.mp member
  exact .kept source (by simpa using floatFree)

theorem runGives {p' : Program} (wellFormed : p.WellFormed) (run : (pass c).run p = .ok p')
    (room : ∀ f ∈ p.functions, ∀ f' ∈ p'.functions, f'.name = f.name → Roomy f f') :
    LoweredProgram c p p' := by
  obtain ⟨supported, trace⟩ := runTrace run
  have declares := functionsDeclare trace
  exact ⟨supported, functionsGive trace List.prefix_rfl
    (fun f hf => WellFormed.noViolation wellFormed hf) room, declaresMore declares,
    declaresForeign declares keptForeign⟩

theorem runAdmits {p' : Program} (run : (pass c).run p = .ok p') :
    ∀ f' ∈ p'.functions, ∀ b' ∈ f'.blocks, ∀ j ∈ b'.instrs,
      ∃ f ∈ p.functions, ∃ b ∈ f.blocks, ∃ i ∈ b.instrs, admits i.op j.op = true := by
  have all {fs fs' : List Function} {externs externs' : List Extern}
      (trace : Pass.Runs (pass c) p fs externs fs' externs') :
      ∀ f' ∈ fs', ∀ b' ∈ f'.blocks, ∀ j ∈ b'.instrs,
        ∃ f ∈ fs, ∃ b ∈ f.blocks, ∃ i ∈ b.instrs, admits i.op j.op = true := by
    induction trace with
    | nil =>
      intro f' none
      cases none
    | @cons f f' rest converted externs externs' s' gives tail ih =>
      obtain ⟨start, bs, converts⟩ := convertsAny gives
      intro g made b' block j instr
      rcases List.mem_cons.mp made with rfl | made
      · rw [converts.blocks] at block
        obtain ⟨old, among, rfl⟩ := List.mem_map.mp block
        obtain ⟨k, isInstr, rfl⟩ := List.mem_map.mp instr
        exact ⟨f, List.mem_cons_self, blocksAdmit converts.trace old among k isInstr⟩
      · obtain ⟨h, member, found⟩ := ih g made b' block j instr
        exact ⟨h, List.mem_cons_of_mem _ member, found⟩
  exact all (runTrace run).2

end Conversion
end FixedIL.Lowering
