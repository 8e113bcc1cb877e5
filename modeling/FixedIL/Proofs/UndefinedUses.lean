import FixedIL.Proofs.Checks
import FixedIL.Proofs.LoweredCalls
import FixedIL.Proofs.ReturnPlans
import Mathlib.Algebra.GroupWithZero.Nat

/-!
Temporaries that a source reads but does not define. Fresh ids lie above those that are defined,
so that one that is only read may be among them; how many there are depends on the instructions
alone.
-/
namespace FixedIL.Lowering

open Emit PassM

section Counts

variable {c : Config} {site : Site} {p : Program} {f f' : Function} {σ ρ : Value → Value}
  {i j : Instr} {code : List Instr}

theorem rewrittenExtra (rewritten : Rewritten site σ i j) : extraIds c site i = 0 := by
  cases rewritten with
  | intLiteral op operands results literal => simp [extraIds, op, operands, literal]
  | copied op =>
    revert op
    unfold extraIds
    cases i.op <;> simp [copied]
  | intConst op | floatConst op | select op | load op | store op | stackaddr op =>
    simp [extraIds, op]

theorem integerDefined {ok : Value → Prop} (integer : ∀ j ∈ code, IntegerCode ok j) :
    (definedIds code).length = code.length := by
  induction code with
  | nil => rfl
  | cons j rest ih =>
    obtain ⟨id, result⟩ := (integer j List.mem_cons_self).result
    rw [definedIdsCons, List.length_append, ih (fun k hk => integer k (List.mem_cons_of_mem _ hk)),
      result, List.length_cons]
    exact Nat.add_comm ..

theorem callCodeDefined {callee : String} {plan : ReturnPlan} {args : List Value}
    {ids : List TempId} {e : Emission} (same : ids.length = plan.types.length) :
    (definedIds (callCode callee plan args ids e)).length =
      (if plan.usesBuffer then 1 else 0) + plan.types.length := by
  have loads (buffer : Value) (ps : List ((Ty × TempId) × Nat)) :
      (definedIds (ps.map (loading plan buffer e.loc))).length = ps.length := by
    simp [definedIds, definedTemps, List.flatMap_map, loading, computing]
  unfold callCode
  split
  · rw [definedIdsCons, definedIdsCons, List.length_append, List.length_append, loads]
    simp [computing, calling, same]
  · simp [definedIds, definedTemps, calling, tempsOf, same]

theorem resolvedBuffer {callee : String} {target : CallTarget}
    (resolves : Resolves c ((pass c).site p f) callee target) : target.plan.usesBuffer =
      (redirect? c p callee).any fun e => e.sig.structReturnIndex?.isSome := by
  cases resolves with
  | function own =>
    obtain ⟨g, named, rfl⟩ := Option.map_eq_some_iff.mp own
    have known : p.functionNamed? callee = some g := named
    rw [ownRedirect (known ▸ rfl)]
    rfl
  | outside foreign unknown =>
    rw [unknownRedirect unknown]
    rfl
  | builtin foreign found fixed classified legal =>
    have none : p.functionNamed? callee = none := foreignSignature.mp foreign
    rw [redirectIff.mpr ⟨none, _, _, _, found, fixed, legal, rfl⟩]
    simp only [ReturnPlan.legalize, classified, bind, Except.bind] at legal
    split at legal
    · rename_i buffer
      cases legal
      exact buffer
    · rename_i registers
      cases legal
      rw [Option.any_some, Builtin.flattenVisible]
      simpa using registers

theorem leavesDefined (leaves : Leaves c ((pass c).site p f) σ i code) :
    (definedIds code).length =
      extraIds c ((pass c).site p f) i + (definedResults i).length := by
  cases leaves with
  | @one j loc rewritten =>
    rw [rewrittenExtra rewritten, ← (rewrittenKeeps rewritten).1]
    simp [definedIds, definedTemps]
  | sequence results sequenced length integer reads =>
    rw [integerDefined integer, length, definedResults, sequencedNoCast sequenced, results]
    rfl
  | nothing cast =>
    have extra : extraIds c ((pass c).site p f) i = 0 := by
      revert cast
      unfold extraIds
      cases i.op <;> simp [sameNumberCast]
    rw [extra, definedResults, cast]
    rfl
  | @call target e op resolves args results =>
    have extra : extraIds c ((pass c).site p f) i = if target.plan.usesBuffer then 1 else 0 := by
      simp only [extraIds, op, resolvedBuffer resolves]
      rfl
    have kept : (definedResults i).length = target.plan.types.length := by
      rw [definedResults, op, ← results]
      exact List.length_map _
    rw [callCodeDefined ((List.length_map _).trans results), extra, kept]

theorem wroteDefined {is : List Instr} {codes : List (List Instr)}
    (wrote : List.Forall₂ (Wrote c ((pass c).site p f)) is codes) :
    (definedIds codes.flatten).length =
      (is.map (extraIds c ((pass c).site p f))).sum + (is.flatMap definedResults).length := by
  induction wrote with
  | nil => rfl
  | cons head tail ih =>
    obtain ⟨s, -, leaves⟩ := head
    rw [List.flatten_cons, definedIdsAppend, List.length_append, ih, leavesDefined leaves,
      List.map_cons, List.sum_cons, List.flatMap_cons, List.length_append]
    omega

theorem tempsLength (f : Function) :
    f.temps.length = (f.blocks.flatMap Block.params).length + (definedIds f.code).length := by
  have apart : (f.blocks.flatMap Block.params ++ f.blocks.flatMap fun b =>
      b.instrs.flatMap Instr.results).Perm f.temps := List.flatMap_append_perm ..
  have code : f.code.flatMap Instr.results =
      f.blocks.flatMap fun b => b.instrs.flatMap Instr.results := List.flatMap_assoc
  rw [← apart.length_eq, List.length_append, definedIds, List.length_map, definedTemps, code]

theorem keptLength (f : Function) : (f.blocks.flatMap keptIds).length =
    (f.blocks.flatMap Block.params).length + (f.code.flatMap definedResults).length := by
  have apart : ((f.blocks.flatMap fun b => b.params.map Temp.id) ++ f.blocks.flatMap fun b =>
      b.instrs.flatMap definedResults).Perm (f.blocks.flatMap keptIds) :=
    List.flatMap_append_perm ..
  have params : (f.blocks.flatMap fun b => b.params.map Temp.id).length =
      (f.blocks.flatMap Block.params).length := by
    rw [← List.map_flatMap, List.length_map]
  have code : f.code.flatMap definedResults =
      f.blocks.flatMap fun b => b.instrs.flatMap definedResults := List.flatMap_assoc
  rw [← apart.length_eq, List.length_append, params, code]

theorem mappedLength {site : Site}
    (params : f'.blocks.map Block.params = f.blocks.map (mappedParams site)) :
    (f'.blocks.flatMap Block.params).length = (f.blocks.flatMap Block.params).length := by
  have each : f.blocks.map (fun b => (mappedParams site b).length) =
      f.blocks.map fun b => b.params.length := by simp [mappedParams]
  have lengths := congrArg (List.map List.length) params
  rw [List.map_map, List.map_map] at lengths
  rw [List.length_flatMap, List.length_flatMap]
  exact congrArg List.sum (lengths.trans each)

theorem lowersCode (lowers : Lowers c p f f') :
    f'.blocks.map Block.params = f.blocks.map (mappedParams ((pass c).site p f)) ∧
      ∃ s codes, Entered ((pass c).site p f) s ∧
        List.Forall₂ (Wrote c ((pass c).site p f)) f.code codes ∧
        f'.code = codes.flatten.map
          (Instr.rename (Pass.resolve s ((pass c).site p f).encoding f.nextTemp.toNat)) := by
  obtain ⟨externs, s, gives⟩ := lowers
  obtain ⟨start, bs, converts⟩ := convertsAny gives
  obtain ⟨params, codes, made⟩ := convertsCode converts
  exact ⟨params, s, codes, made⟩

def neededIds (c : Config) (p : Program) (f : Function) : Nat :=
  (f.code.map (extraIds c ((pass c).site p f))).sum

theorem handedOutNeeded (lowers : Lowers c p f f') : handedOut f f' = neededIds c p f := by
  obtain ⟨params, s, codes, -, wrote, written⟩ := lowersCode lowers
  rw [handedOut, tempsLength, mappedLength params, written, definedIdsRename, wroteDefined wrote,
    keptLength, neededIds]
  omega

end Counts

/-- A use that lowering leaves in the code: by an operand of what is no cast within a number, or by
an argument of a copied branch. -/
inductive KeptUse (i : Instr) (id : TempId) : Prop where
  | operand (member : .temp id ∈ i.operands) (other : sameNumberCast i.op = false)
  | argument {args : List Value} (branch : args ∈ i.branchArgs) (member : .temp id ∈ args)
      (op : copied i.op = true ∨ i.op = .stackaddr)

section Uses

variable {c : Config} {site : Site} {p p' : Program} {f f' : Function} {s : PassState}
  {σ ρ : Value → Value} {i j : Instr} {code : List Instr} {id : TempId}

theorem keptUseNoCast (use : KeptUse i id) : sameNumberCast i.op = false := by
  cases use with
  | operand member other => exact other
  | argument branch member op => exact op.elim copiedNoCast fun is => by rw [is]; rfl

theorem usesMapped {vs : List Value} (member : .temp id ∈ vs) (same : σ (.temp id) = .temp id) :
    .temp id ∈ vs.map σ := List.mem_map.mpr ⟨_, member, same⟩

theorem rewrittenUses (rewritten : Rewritten site σ i j) (same : σ (.temp id) = .temp id)
    (use : KeptUse i id) : j.Uses id := by
  cases use with
  | operand member other =>
    cases rewritten with
    | intConst op operands results literal | intLiteral op operands results literal
    | floatConst op operands results literal =>
      rw [operands, List.mem_singleton] at member
      subst member
      cases literal
    | select | load | store | copied => exact .inl (usesMapped member same)
    | stackaddr op operands results slot literal =>
      obtain ⟨v, offset, pair⟩ := List.length_eq_two.mp operands
      rw [pair] at slot member
      cases slot
      rcases List.mem_cons.mp member with rfl | member
      · cases literal
      · refine .inl (List.mem_cons_of_mem _ ?_)
        rw [pair]
        exact usesMapped member same
  | argument branch member op =>
    cases rewritten with
    | intConst is | intLiteral is | floatConst is | select is | load is | store is =>
      rw [is] at op
      rcases op with op | op <;> cases op
    | stackaddr | copied =>
      exact .inr ⟨_, List.mem_map_of_mem branch, usesMapped member same⟩

theorem leavesUses (leaves : Leaves c site σ i code) (same : σ (.temp id) = .temp id)
    (use : KeptUse i id) : ∃ j ∈ code, j.Uses id := by
  cases leaves with
  | @one j loc rewritten =>
    have uses : j.Uses id := rewrittenUses rewritten same use
    exact ⟨_, List.mem_singleton_self _, uses⟩
  | sequence results sequenced length integer reads =>
    cases use with
    | operand member other =>
      obtain ⟨j, among, operand⟩ := reads _ member
      exact ⟨j, among, .inl (same ▸ operand)⟩
    | argument branch member op =>
      cases sequenced with
      | arith is | compare is | ofInt is | toInt is =>
        rw [is] at op
        rcases op with op | op <;> cases op
  | nothing cast =>
    rw [keptUseNoCast use] at cast
    cases cast
  | call op =>
    cases use with
    | operand member other =>
      have args := usesMapped member same
      unfold callCode
      split
      · exact ⟨_, List.mem_cons_of_mem _ List.mem_cons_self, .inl (List.mem_cons_of_mem _ args)⟩
      · exact ⟨_, List.mem_singleton_self _, .inl args⟩
    | argument branch member is =>
      rw [op] at is
      rcases is with is | is <;> cases is

theorem undefinedStays (entered : Entered site s)
    (undefined : ∀ t ∈ site.function.temps, t.id ≠ id) :
    s.operand site.encoding (.temp id) = .temp id := by
  cases found : s.values.lookup id with
  | none => simp [PassState.operand, found]
  | some w =>
    rcases entered id w found with ⟨rfl, -⟩ | ⟨v, casts, -⟩
    · simp [PassState.operand, found]
    · obtain ⟨t, member, same⟩ := List.mem_map.mp (castDefined casts)
      exact absurd same (undefined t member)

theorem renamedUses (uses : j.Uses id) (same : ρ (.temp id) = .temp id) : (j.rename ρ).Uses id := by
  rcases uses with operand | ⟨args, branch, argument⟩
  · exact .inl (usesMapped operand same)
  · exact .inr ⟨_, List.mem_map_of_mem branch, usesMapped argument same⟩

theorem wroteUses {is : List Instr} {codes : List (List Instr)}
    (wrote : List.Forall₂ (Wrote c site) is codes)
    (undefined : ∀ t ∈ site.function.temps, t.id ≠ id) (instr : i ∈ is) (use : KeptUse i id) :
    ∃ j ∈ codes.flatten, j.Uses id := by
  obtain ⟨code, among, s, entered, leaves⟩ := partner wrote instr
  obtain ⟨j, member, uses⟩ := leavesUses leaves (undefinedStays entered undefined) use
  exact ⟨j, List.mem_flatten.mpr ⟨code, among, member⟩, uses⟩

theorem undefinedRead (lowers : Lowers c p f f') (undefined : ∀ t ∈ f.temps, t.id ≠ id)
    (instr : i ∈ f.code) (use : KeptUse i id) : ∃ j ∈ f'.code, j.Uses id := by
  obtain ⟨-, s, codes, entered, wrote, written⟩ := lowersCode lowers
  obtain ⟨j, member, uses⟩ := wroteUses wrote undefined instr use
  rw [written]
  exact ⟨_, List.mem_map_of_mem member,
    renamedUses uses (resolveFixed _ (undefinedStays entered undefined))⟩

theorem readDefined (sound : f.violation? p = none) (instr : j ∈ f.code) (uses : j.Uses id) :
    ∃ t ∈ f.temps, t.id = id := by
  obtain ⟨b, block, instr⟩ := List.mem_flatMap.mp instr
  have checks := WellFormed.instrSound sound block instr
  rcases uses with operand | ⟨args, branch, argument⟩
  · exact WellFormed.operandAmongTemps checks operand
  · exact WellFormed.argumentAmongTemps checks branch argument

/-- A temporary that the source does not define is defined behind lowering exactly if its id is
one of as many behind those of the source as the instructions need. If it is not, then lowered
code that still reads it is refused. -/
theorem undefinedCaptured (lowers : Lowers c p f f') (fits : Fits f.idsEnd (neededIds c p f))
    (undefined : ∀ t ∈ f.temps, t.id ≠ id) :
    ((∃ t ∈ f'.temps, t.id = id) ↔
      f.idsEnd ≤ id.toNat ∧ id.toNat < f.idsEnd + neededIds c p f) ∧
    ∀ p', f'.violation? p' = none → ∀ i ∈ f.code, KeptUse i id →
      f.idsEnd ≤ id.toNat ∧ id.toNat < f.idsEnd + neededIds c p f := by
  rw [← handedOutNeeded lowers] at fits ⊢
  obtain ⟨-, perm⟩ := lowersCounted lowers fits
  have absent : id ∉ f.blocks.flatMap keptIds := fun kept => by
    obtain ⟨t, member, same⟩ := List.mem_map.mp ((keptSublist f.blocks).subset kept)
    exact undefined t member same
  have defined : (∃ t ∈ f'.temps, t.id = id) ↔
      f.idsEnd ≤ id.toNat ∧ id.toNat < f.idsEnd + handedOut f f' := by
    rw [← List.mem_map, perm.mem_iff, List.mem_append, or_iff_left absent, freshIdsIff fits]
  refine ⟨defined, fun p' sound i instr use => defined.mp ?_⟩
  obtain ⟨j, member, uses⟩ := undefinedRead lowers undefined instr use
  exact readDefined sound member uses

section Peek

def peekSource : Function where
  name := "peek"
  sig := .ofTypes [.f32] [.i1]
  blocks := [⟨"entry", [⟨0, .f32⟩], [
    { Instr.blank (.float .abs) with
      type := .f32, results := [⟨1, .f32⟩], operands := [.temp 0] },
    { Instr.blank .ret with operands := [.temp 2] }]⟩]
  slots := []
  valueNames := []

def peekTarget : Function where
  name := "peek"
  sig := .ofTypes [.i32] [.i1]
  blocks := [⟨"entry", [⟨0, .i32⟩], (Sequence.abs (.temp 0) 1).written ⟨2, .unknown, [], []⟩ ++
    [{ Instr.blank .ret with operands := [.temp 2] }]⟩]
  slots := []
  valueNames := []

theorem peekLowers : Lowers squareConfig ⟨[], [peekSource]⟩ peekSource peekTarget := by
  have run : (pass squareConfig).runFunction ⟨[], [peekSource]⟩ [] peekSource =
      .ok (peekTarget, []) := okOfOption (by decide +kernel)
  exact runFunctionLowers (by decide +kernel) run

theorem peekCapturesSign : ¬ Program.WellFormed ⟨[], [peekSource]⟩ ∧
    Program.WellFormed ⟨[], [peekTarget]⟩ ∧ (∀ t ∈ peekSource.temps, t.id ≠ 2) ∧
    ∃ t ∈ peekTarget.temps, t.id = 2 := by
  have undefined : ∀ t ∈ peekSource.temps, t.id ≠ 2 := by decide +kernel
  obtain ⟨captured, -⟩ := undefinedCaptured peekLowers (fitsBelow (by decide +kernel)) undefined
  exact ⟨by decide +kernel, by decide +kernel, undefined, captured.mpr (by decide +kernel)⟩

end Peek

end Uses

end FixedIL.Lowering
