import FixedIL.Proofs.LoweredFunction

/-!
The shape of a lowered function, whether its source is well formed or not. Blocks, parameters
and frame slots carry over, and a block is made of one segment of code for each of its
instructions, which stands where the instruction stood and defines what it defined.
-/
namespace FixedIL

namespace Lowering

structure SegmentShape (f : Function) (i : Instr) (code : List Instr) : Prop where
  located : ∀ j ∈ code, j.loc = i.loc
  control : i.isTerminator = true → ∃ j, code = [j] ∧ j.op = i.op ∧ j.labels = i.labels
  cast : sameNumberCast i.op = true → code = []
  straight : i.isTerminator = false → ∀ j ∈ code, j.isTerminator = false
  results : sameNumberCast i.op = false → ∀ t ∈ i.results, (definedIds code).count t.id = 1
  others : ∀ id ∈ definedIds code, id ∈ i.resultIds ∨ f.Fresh id

structure BlockShape (format : Fixed.Format) (f : Function) (b b' : Block) : Prop where
  label : b'.label = b.label
  params : b'.params = b.params.map fun t => { t with type := mapTy format t.type }
  code : ∃ codes, b'.instrs = codes.flatten ∧ List.Forall₂ (SegmentShape f) b.instrs codes

structure FunctionShape (format : Fixed.Format) (f f' : Function) : Prop where
  name : f'.name = f.name
  sig : f'.sig = f.sig.mapTypes (mapTy format)
  valueNames : f'.valueNames = f.valueNames
  slots : f.slots <+: f'.slots
  blocks : List.Forall₂ (BlockShape format f) f.blocks f'.blocks

def Lowers (c : Config) (p : Program) (f f' : Function) : Prop :=
  ∃ externs s', ((pass c).function p f (f.sig.mapTypes (mapTy c.format))).Gives
    { PassState.blank (.fresh 0) with externs := externs } f' s'

def handedOut (f f' : Function) : Nat := f'.temps.length - (f.blocks.flatMap keptIds).length

section Segments

variable {c : Config} {site : Site} {σ : Value → Value} {i j : Instr} {x : Emit Unit}
  {names : List (TempId × Value)} {f : Function}

theorem controlOne (lowered : Lowered c site σ i x names) (ends : i.isTerminator = true) :
    ∃ j, x = Emit.append j ∧ j.op = i.op ∧ j.labels = i.labels := by
  cases lowered with
  | one rewritten =>
    cases rewritten with
    | copied op => exact ⟨_, rfl, rfl, rfl⟩
    | intConst op | floatConst op | intLiteral op | select op | load op | store op
    | stackaddr op =>
      rw [Instr.isTerminator, op] at ends
      cases ends
  | sequence results sequenced =>
    cases sequenced with
    | arith is | compare is | ofInt is | toInt is =>
      rw [Instr.isTerminator, is] at ends
      cases ends
  | same cast =>
    revert cast ends
    cases op : i.op <;> simp [sameNumberCast, Instr.isTerminator, op, Opcode.isTerminator]
  | call op =>
    rw [Instr.isTerminator, op] at ends
    cases ends

theorem castNothing (lowered : Lowered c site σ i x names) (cast : sameNumberCast i.op = true) :
    x = pure () := by
  cases lowered with
  | one rewritten =>
    rw [rewrittenNoCast rewritten] at cast
    cases cast
  | sequence results sequenced =>
    rw [sequencedNoCast sequenced] at cast
    cases cast
  | same => rfl
  | call op =>
    rw [op] at cast
    cases cast

/-- Between two emissions so many fresh ids are handed out. With those kept they are all that is
defined, and what is written has its shape, if the ids behind those of the function suffice. -/
structure Counted (f : Function) (kept : List TempId) (e e' : Emission) (defined : List TempId)
    (count : Nat) (shape : Prop) : Prop where
  size : defined.length = count + kept.length
  keeps : kept ⊆ defined
  counts : ∀ n, f.idsEnd ≤ n → e.Counts n → e'.Counts (n + count)
  shape : ∀ n, f.idsEnd ≤ n → e.Counts n → Fits n count →
    shape ∧ defined.Perm (freshIds n count ++ kept)

theorem countedNone {e : Emission} {ids : List TempId} : Counted f ids e e ids 0 True :=
  ⟨(Nat.zero_add _).symm, List.Subset.refl _, fun _ _ counts => counts,
    fun _ _ _ _ => ⟨trivial, .refl _⟩⟩

theorem Counted.append {kept kept' defined defined' : List TempId} {e mid e' : Emission}
    {count count' : Nat} {shape shape' : Prop} (first : Counted f kept e mid defined count shape)
    (second : Counted f kept' mid e' defined' count' shape') :
    Counted f (kept ++ kept') e e' (defined ++ defined') (count + count') (shape ∧ shape') := by
  refine ⟨?_, ?_, fun n above counts => ?_, fun n above counts fits => ?_⟩
  · rw [List.length_append, first.size, second.size, List.length_append]
    omega
  · exact List.append_subset.mpr ⟨List.Subset.trans first.keeps (List.subset_append_left ..),
      List.Subset.trans second.keeps (List.subset_append_right ..)⟩
  · rw [← Nat.add_assoc]
    exact second.counts _ (Nat.le_add_right_of_le above) (first.counts n above counts)
  · obtain ⟨holds, perm⟩ := first.shape n above counts (fitsFirst fits)
    obtain ⟨holds', perm'⟩ := second.shape _ (Nat.le_add_right_of_le above)
      (first.counts n above counts) (fitsRest fits)
    rw [← freshIdsAppend]
    exact ⟨⟨holds, holds'⟩, numberedTwice perm perm'⟩

theorem loweredCounted {e : Emission} (lowered : Lowered c site σ i x names)
    (once : i.resultIds.Nodup) (inside : ∀ id ∈ i.resultIds, id.toNat < f.idsEnd)
    (here : e.loc = i.loc) :
    ∃ code count, (x.run e).2.code = e.code ++ code ∧
      Counted f (definedResults i) e (x.run e).2 (definedIds code) count
        (SegmentShape f i code) := by
  obtain ⟨y, names', ts, -, composed, ids, -⟩ := loweredComposed (ρ := id) (fun _ _ => rfl) lowered
  obtain ⟨code, count, adds⟩ := Emit.composedAdds composed e
  have results (n : Nat) (above : f.idsEnd ≤ n) : ∀ t ∈ ts, t.id.toNat < n := fun t member =>
    Nat.lt_of_lt_of_le
      (inside _ ((sublistResults i).subset (ids ▸ List.mem_map_of_mem member))) above
  refine ⟨code, count, adds.added, ?_, ids ▸ List.map_subset Temp.id adds.kept,
    fun n above counts => adds.counts n counts (results n above), fun n above counts fits => ?_⟩
  · rw [definedIds, List.length_map, adds.size, ← ids, List.length_map]
  have perm := (adds.numbered n counts (results n above) fits).ids
  rw [ids] at perm
  refine ⟨⟨adds.placed here, fun ends => ?_, fun cast => ?_, fun plain j member => ?_,
    fun other t result => ?_, fun id member => ?_⟩, perm⟩
  · obtain ⟨j, rfl, op, labels⟩ := controlOne lowered ends
    have one : [e.placed j] = code := List.append_cancel_left adds.added
    refine ⟨e.placed j, one.symm, (Emit.placedOp e j).trans op, ?_⟩
    unfold Emission.placed
    split <;> exact labels
  · obtain rfl := castNothing lowered cast
    have none : e.code ++ [] = e.code ++ code := (List.append_nil _).trans adds.added
    exact (List.append_cancel_left none).symm
  · have admitted := (Bool.and_eq_true_iff.mp (adds.admitted j member)).2
    rw [show i.op.isTerminator = false from plain, Bool.false_or, Bool.not_eq_true'] at admitted
    exact admitted
  · have kept : definedResults i = i.resultIds := by
      rw [definedResults, other]
      rfl
    have member : t.id ∈ i.resultIds := List.mem_map_of_mem result
    have old : t.id ∉ freshIds n count := fun new => by
      have low := (memFreshIds fits new).1
      have high := inside t.id member
      omega
    rw [perm.count_eq, List.count_append, List.count_eq_zero_of_not_mem old, kept,
      List.count_eq_one_of_mem once member]
  · rcases List.mem_append.mp (perm.subset member) with new | old
    · exact .inr (Function.freshAbove (Nat.le_trans above (memFreshIds fits new).1))
    · exact .inl ((sublistResults i).subset old)

theorem traceCounted {is : List Instr} {s s' : PassState} (trace : Trace c site is s s')
    (inside : ∀ id ∈ definedIds is, id.toNat < f.idsEnd) :
    ∃ codes count, s'.emission.code = s.emission.code ++ codes.flatten ∧
      Counted f (is.flatMap definedResults) s.emission s'.emission (definedIds codes.flatten) count
        (List.Forall₂ (SegmentShape f) is codes) := by
  induction trace with
  | nil s =>
    have none : Counted f [] s.emission s.emission [] 0 True := countedNone
    exact ⟨[], 0, (List.append_nil _).symm, none.size, none.keeps, none.counts,
      fun n above counts fits => ⟨.nil, (none.shape n above counts fits).2⟩⟩
  | @cons i rest x names s mid s' unseen lowered leads tail ih =>
    rw [definedIdsCons] at inside
    obtain ⟨code, count, added, here⟩ := loweredCounted (e := (located s i.loc).emission) lowered
      (unseenOnce unseen).1 (fun id result => inside id (List.mem_append_left _ result)) rfl
    obtain ⟨codes, count', added', later⟩ :=
      ih fun id result => inside id (List.mem_append_right _ result)
    rw [← leads.emission] at added here
    have both := here.append later
    refine ⟨code :: codes, count + count', ?_, ?_, ?_, both.counts,
      fun n above counts fits => ?_⟩
    · rw [added', added, List.append_assoc]
      rfl
    · rw [List.flatten_cons, definedIdsAppend]
      exact both.size
    · rw [List.flatten_cons, definedIdsAppend]
      exact both.keeps
    · obtain ⟨⟨head, tail⟩, perm⟩ := both.shape n above counts fits
      rw [List.flatten_cons, definedIdsAppend]
      exact ⟨.cons head tail, perm⟩

end Segments

section Blocks

variable {c : Config} {p : Program} {f f' : Function} {ρ : Value → Value} {s s' : PassState}
  {bs bs' : List Block}

theorem blocksCounted (trace : BlocksTrace c ((pass c).site p f) bs s bs' s')
    (inside : ∀ id ∈ blockTemps bs, id.toNat < f.idsEnd) :
    ∃ count, Counted f (bs.flatMap keptIds) s.emission s'.emission (blockTemps bs') count
      (List.Forall₂ (BlockShape c.format f) bs bs') := by
  induction trace with
  | nil s =>
    have none : Counted f [] s.emission s.emission [] 0 True := countedNone
    exact ⟨0, none.size, none.keeps, none.counts, fun n above counts fits =>
      ⟨.nil, (none.shape n above counts fits).2⟩⟩
  | @cons b rest converted s mid s' trace tail ih =>
    rw [blockTempsCons] at inside
    obtain ⟨codes, count, added, own⟩ := traceCounted trace fun id member =>
      inside id (List.mem_append_right _ (List.mem_append_left _ member))
    obtain ⟨count', later⟩ := ih fun id member =>
      inside id (List.mem_append_right _ (List.mem_append_right _ member))
    have written : mid.emission.code = codes.flatten := added
    have body : Counted f _ s.emission mid.emission _ count _ :=
      ⟨own.size, own.keeps, own.counts, own.shape⟩
    have params : Counted f (b.params.map Temp.id) s.emission s.emission _ 0 True := countedNone
    have whole := params.append (body.append later)
    have temps : blockTemps (⟨b.label, mappedParams ((pass c).site p f) b, mid.emission.code⟩ ::
        converted) =
          b.params.map Temp.id ++ (definedIds codes.flatten ++ blockTemps converted) := by
      rw [blockTempsCons, written, mappedParamsIds]
    rw [temps, List.flatMap_cons, keptIds, List.append_assoc]
    refine ⟨0 + (count + count'), whole.size, whole.keeps, whole.counts,
      fun n above counts fits => ?_⟩
    obtain ⟨⟨-, segments, blocks⟩, perm⟩ := whole.shape n above counts fits
    exact ⟨.cons ⟨rfl, rfl, codes, written, segments⟩ blocks, perm⟩

theorem segmentRenamed {i : Instr} {code : List Instr} (shape : SegmentShape f i code) :
    SegmentShape f i (code.map (Instr.rename ρ)) := by
  refine ⟨fun j member => ?_, fun ends => ?_, fun cast => ?_, fun plain j member => ?_,
    fun other => ?_, ?_⟩
  · obtain ⟨j, old, rfl⟩ := List.mem_map.mp member
    exact shape.located j old
  · obtain ⟨j, rfl, op, labels⟩ := shape.control ends
    exact ⟨j.rename ρ, rfl, op, labels⟩
  · rw [shape.cast cast]
    rfl
  · obtain ⟨j, old, rfl⟩ := List.mem_map.mp member
    exact shape.straight plain j old
  · rw [definedIdsRename]
    exact shape.results other
  · rw [definedIdsRename]
    exact shape.others

theorem blockRenamed {format : Fixed.Format} {b b' : Block} (shape : BlockShape format f b b') :
    BlockShape format f b (renamedBlock ρ b') := by
  obtain ⟨label, params, codes, written, segments⟩ := shape
  refine ⟨label, params, codes.map (List.map (Instr.rename ρ)), ?_, ?_⟩
  · rw [renamedBlock, written, List.map_flatten]
  · exact List.forall₂_map_right_iff.mpr (segments.imp fun _ _ => segmentRenamed)

theorem blockTempsRename (bs : List Block) :
    blockTemps (bs.map (renamedBlock ρ)) = blockTemps bs := by
  induction bs with
  | nil => rfl
  | cons b rest ih =>
    rw [List.map_cons, blockTempsCons, blockTempsCons, ih, renamedBlock, definedIdsRename]

end Blocks

section Conversion

variable {c : Config} {p : Program} {f f' : Function} {externs : List Extern} {sig : Signature}
  {s' start : PassState} {bs : List Block} {n : Nat}

theorem convertsTemps (converts : Converts c p f n externs sig f' s' start bs) :
    f'.temps.map Temp.id = blockTemps bs := by
  rw [← blockTempsRename, ← converts.blocks]
  rfl

theorem convertsCounted (converts : Converts c p f n externs sig f' s' start bs) :
    ∃ count, Counted f (f.blocks.flatMap keptIds) start.emission s'.emission
      (f'.temps.map Temp.id) count (List.Forall₂ (BlockShape c.format f) f.blocks bs) := by
  rw [convertsTemps converts]
  refine blocksCounted converts.trace fun id member => ?_
  obtain ⟨t, defined, rfl⟩ := List.mem_map.mp member
  exact Function.tempBelowEnd defined _

end Conversion

theorem runFunctionLowers {c : Config} {p : Program} {externs externs' : List Extern}
    {f f' : Function} (named : p.functionNamed? f.name = some f)
    (run : (pass c).runFunction p externs f = .ok (f', externs')) : Lowers c p f f' := by
  have own : ((pass c).site p f).signature? f.name = some (f.sig.mapTypes (mapTy c.format)) :=
    congrArg (Option.map _) named
  have sig : (pass c).sigFor p f = f.sig.mapTypes (mapTy c.format) := by rw [Pass.sigFor, own]; rfl
  obtain ⟨s', gives, -⟩ := Pass.runFunctionGives.mp run
  rw [sig] at gives
  exact ⟨externs, s', gives⟩

theorem lowersCounted {c : Config} {p : Program} {f f' : Function} (lowers : Lowers c p f f')
    (fits : Fits f.idsEnd (handedOut f f')) :
    FunctionShape c.format f f' ∧ (f'.temps.map Temp.id).Perm
      (freshIds f.idsEnd (handedOut f f') ++ f.blocks.flatMap keptIds) := by
  obtain ⟨externs, s', gives⟩ := lowers
  obtain ⟨start, bs, converts⟩ := convertsAny gives
  obtain ⟨count, counted⟩ := convertsCounted converts
  have handed : handedOut f f' = count := by
    rw [handedOut, ← List.length_map Temp.id, counted.size, Nat.add_sub_cancel]
  have begins : start.emission.Counts f.idsEnd := fun small => by
    rw [converts.next]
    exact Function.nextTempEnd small
  rw [handed] at fits ⊢
  obtain ⟨blocks, perm⟩ := counted.shape _ (Nat.le_refl _) begins fits
  refine ⟨⟨converts.name, converts.sig, converts.valueNames, ?_, ?_⟩, perm⟩
  · rw [converts.slots, ← converts.framed]
    exact (blocksGrow converts.trace).2
  · rw [converts.blocks]
    exact List.forall₂_map_right_iff.mpr (blocks.imp fun _ _ => blockRenamed)

/-- Lowering keeps the shape of a function, block by block and instruction by instruction. -/
theorem loweringKeepsShape {c : Config} {p : Program} {f f' : Function} (lowers : Lowers c p f f')
    (fits : Fits f.idsEnd (handedOut f f')) : FunctionShape c.format f f' :=
  (lowersCounted lowers fits).1

def squareSource : Function where
  name := "square"
  sig := .ofTypes [.f32] [.f32]
  blocks := [
    ⟨"entry", [⟨0, .f32⟩], [
      { Instr.blank (.float .mul) with
        type := .f32, results := [⟨1, .f32⟩], operands := [.temp 0, .temp 0] },
      { Instr.blank .br with labels := ["widen"], branchArgs := [[.temp 1]] }]⟩,
    ⟨"done", [], [{ Instr.blank .ret with operands := [.temp 4] }]⟩,
    ⟨"widen", [⟨2, .f32⟩], [
      { Instr.blank .fpext with type := .f64, results := [⟨3, .f64⟩], operands := [.temp 2] },
      { Instr.blank .fptrunc with type := .f32, results := [⟨4, .f32⟩], operands := [.temp 3] },
      { Instr.blank .br with labels := ["done"], branchArgs := [[]] }]⟩]
  slots := []
  valueNames := []

def squareTarget : Function where
  name := "square"
  sig := .ofTypes [.i32] [.i32]
  blocks := [
    ⟨"entry", [⟨0, .i32⟩],
      (Sequence.mul (.temp 0) (.temp 0) 1).written ⟨5, .unknown, [], []⟩ ++
        [{ Instr.blank .br with labels := ["widen"], branchArgs := [[.temp 1]] }]⟩,
    ⟨"done", [], [{ Instr.blank .ret with operands := [.temp 2] }]⟩,
    ⟨"widen", [⟨2, .i32⟩], [{ Instr.blank .br with labels := ["done"], branchArgs := [[]] }]⟩]
  slots := []
  valueNames := []

def squareConfig : Config := ⟨.empty, .host, .fixed16x16⟩

theorem squareLowers : Lowers squareConfig ⟨[], [squareSource]⟩ squareSource squareTarget := by
  have run : (pass squareConfig).runFunction ⟨[], [squareSource]⟩ [] squareSource =
      .ok (squareTarget, []) := okOfOption (by decide +kernel)
  exact runFunctionLowers (by decide +kernel) run

theorem squareKeepsShape : Fits squareSource.idsEnd (handedOut squareSource squareTarget) ∧
    FunctionShape squareConfig.format squareSource squareTarget := by
  have fits : Fits squareSource.idsEnd (handedOut squareSource squareTarget) :=
    fitsBelow (by decide +kernel)
  exact ⟨fits, loweringKeepsShape squareLowers fits⟩

end Lowering
end FixedIL
