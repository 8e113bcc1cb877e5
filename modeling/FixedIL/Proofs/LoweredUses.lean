import FixedIL.Proofs.Checks
import FixedIL.Proofs.LoweredShape

/-!
What lowered code reads. An instruction becomes code that reads the temporaries of the source and
those it defines on its way; once names have been followed to their ends, none of them is the
result of a cast, and so all of them are still defined.
-/
namespace FixedIL.Lowering

open Emit PassM

def only (ids : List TempId) : Value → Value
  | .temp id => if id ∈ ids then .temp id else .null
  | v => v

def ReadsOnly (ids : List TempId) (code : List Instr) : Prop :=
  ∀ j ∈ code, ∀ id, j.Uses id → id ∈ ids

section Reading

variable {c : Config} {site : Site} {σ ρ : Value → Value} {i j : Instr} {ids : List TempId}
  {id : TempId} {code : List Instr} {e : Emission} {x : Emit Unit}
  {names : List (TempId × Value)}

theorem onlyKeeps (member : id ∈ ids) : only ids (.temp id) = .temp id := if_pos member

theorem onlyLiteral (v : Value) (plain : v.isTemp = false) : only ids v = v := by
  cases v with
  | temp id => cases plain
  | _ => rfl

theorem memOnly {vs : List Value} (same : vs.map (only ids) = vs) (member : .temp id ∈ vs) :
    id ∈ ids := by
  have kept : only ids (.temp id) = .temp id :=
    List.map_inj_left.mp (same.trans (List.map_id vs).symm) _ member
  by_contra missing
  rw [only, if_neg missing] at kept
  cases kept

theorem renamedReads (same : code.map (Instr.rename (only ids)) = code) : ReadsOnly ids code := by
  intro j member id uses
  have kept : j.rename (only ids) = j :=
    List.map_inj_left.mp (same.trans (List.map_id code).symm) j member
  rcases uses with operand | ⟨args, branch, argument⟩
  · exact memOnly (congrArg Instr.operands kept) operand
  · have arguments : j.branchArgs.map (·.map (only ids)) = j.branchArgs :=
      congrArg Instr.branchArgs kept
    exact memOnly (List.map_inj_left.mp (arguments.trans (List.map_id _).symm) args branch) argument

theorem usesRenamed (literals : ∀ v, v.isTemp = false → ρ v = v) (uses : (j.rename ρ).Uses id) :
    ∃ u, j.Uses u ∧ ρ (.temp u) = .temp id := by
  have source {vs : List Value} (member : .temp id ∈ vs.map ρ) :
      ∃ u, .temp u ∈ vs ∧ ρ (.temp u) = .temp id := by
    obtain ⟨v, among, became⟩ := List.mem_map.mp member
    cases v with
    | temp u => exact ⟨u, among, became⟩
    | _ =>
      rw [literals _ rfl] at became
      cases became
  rcases uses with operand | ⟨args, branch, argument⟩
  · obtain ⟨u, among, became⟩ := source operand
    exact ⟨u, .inl among, became⟩
  · obtain ⟨args, old, rfl⟩ := List.mem_map.mp branch
    obtain ⟨u, among, became⟩ := source argument
    exact ⟨u, .inr ⟨args, old, among⟩, became⟩

theorem loweredReads (lowered : Lowered c site σ i x names)
    (settled : ∀ more, Settled (only (ids ++ more)) σ i) :
    ∃ code, (x.run e).2.code = e.code ++ code ∧ ReadsOnly (ids ++ definedIds code) code := by
  obtain ⟨y, names', ts, -, composed, -, -, alone⟩ :=
    loweredComposed (ρ := only (ids ++ definedIds (x.written e))) onlyLiteral lowered
  obtain ⟨code, one⟩ := composedWrites composed e
  obtain rfl : x.written e = code := writtenAppended one.appended
  refine ⟨x.written e, one.appended, renamedReads ?_⟩
  have run := one.renamed (fun id member => onlyKeeps (List.mem_append_right ids member)) e.code
  rw [alone (settled _)] at run
  have twice : e.code ++ (x.written e).map (Instr.rename _) = e.code ++ x.written e :=
    (congrArg (fun r => r.2.code) run).symm.trans one.appended
  exact List.append_cancel_left twice

end Reading

section Sources

variable {c : Config} {p : Program} {f f' : Function} {i : Instr} {b : Block} {is : List Instr}
  {bs bs' : List Block} {s s' : PassState}

theorem operandsSettled (sound : f.violation? p = none) (block : b ∈ f.blocks)
    (instr : i ∈ b.instrs) (entered : Entered ((pass c).site p f) s) (more : List TempId) :
    Settled (only (f.temps.map Temp.id ++ more)) (s.operand ((pass c).site p f).encoding) i := by
  have stays {v : Value} (defined : ∀ id, v = .temp id → ∃ t ∈ f.temps, t.id = id) :
      only (f.temps.map Temp.id ++ more) (s.operand ((pass c).site p f).encoding v) =
        s.operand ((pass c).site p f).encoding v := by
    cases became : s.operand ((pass c).site p f).encoding v with
    | temp k =>
      obtain ⟨u, same, is⟩ := operandBecomes entered v
      rw [became] at is
      obtain rfl := encodedTemp (fun _ => rfl) is.symm
      obtain ⟨t, member, rfl⟩ := sameDefined sound same defined
      exact onlyKeeps (List.mem_append_left _ (List.mem_map_of_mem member))
    | _ => rfl
  have checks := WellFormed.instrSound sound block instr
  exact ⟨fun v operand => stays fun id is => WellFormed.operandAmongTemps checks (is ▸ operand),
    fun args branch v argument => stays fun id is =>
      WellFormed.argumentAmongTemps checks branch (is ▸ argument)⟩

theorem readsMore {ids ids' : List TempId} {code : List Instr} (reads : ReadsOnly ids code)
    (more : ids ⊆ ids') : ReadsOnly ids' code :=
  fun j member id uses => more (reads j member id uses)

theorem traceReads (sound : f.violation? p = none) (block : b ∈ f.blocks)
    (trace : Trace c ((pass c).site p f) is s s') (within : ∀ i ∈ is, i ∈ b.instrs)
    (entered : Entered ((pass c).site p f) s) :
    Entered ((pass c).site p f) s' ∧ ∃ code, s'.emission.code = s.emission.code ++ code ∧
      ReadsOnly (f.temps.map Temp.id ++ definedIds code) code := by
  induction trace with
  | nil s => exact ⟨entered, [], (List.append_nil _).symm, List.forall_mem_nil _⟩
  | @cons i rest x names s mid s' unseen lowered leads tail ih =>
    have instr := within i List.mem_cons_self
    obtain ⟨code, added, reads⟩ := loweredReads (e := (located s i.loc).emission) lowered
      (operandsSettled sound block instr entered)
    rw [← leads.emission] at added
    have once := WellFormed.definesOnce sound
    obtain ⟨entered', code', added', reads'⟩ :=
      ih (fun i hi => within i (List.mem_cons_of_mem _ hi))
        (enteredStep once block instr entered lowered leads.values)
    refine ⟨entered', code ++ code', ?_, fun j member => ?_⟩
    · rw [added', added, List.append_assoc]
      rfl
    · rw [definedIdsAppend, ← List.append_assoc]
      rcases List.mem_append.mp member with early | late
      · exact readsMore reads (List.subset_append_left ..) j early
      · refine readsMore reads' (List.append_subset.mpr ⟨?_, List.subset_append_right ..⟩) j late
        rw [List.append_assoc]
        exact List.subset_append_left ..

theorem blocksRead (sound : f.violation? p = none)
    (trace : BlocksTrace c ((pass c).site p f) bs s bs' s') (within : ∀ b ∈ bs, b ∈ f.blocks)
    (entered : Entered ((pass c).site p f) s) :
    ∀ b ∈ bs', ReadsOnly (f.temps.map Temp.id ++ definedIds b.instrs) b.instrs := by
  induction trace with
  | nil s => exact List.forall_mem_nil _
  | @cons b rest converted s mid s' trace tail ih =>
    obtain ⟨entered', code, added, reads⟩ := traceReads sound (within b List.mem_cons_self) trace
      (fun i instr => instr) entered
    have written : mid.emission.code = code := added
    refine List.forall_mem_cons.mpr ⟨?_, ?_⟩
    · rw [written]
      exact reads
    · exact ih (fun b hb => within b (List.mem_cons_of_mem _ hb)) entered'

end Sources

section Ends

variable {c : Config} {p : Program} {f f' : Function} {s : PassState} {n : Nat} {u k : TempId}

theorem followedEnds (sound : f.violation? p = none) (acyclic : CastsAcyclic f)
    (complete : Complete ((pass c).site p f) n s)
    (became : Pass.resolve s ((pass c).site p f).encoding n (.temp u) = .temp k) :
    (k = u ∨ ∃ t ∈ f.temps, t.id = k) ∧ ¬ IsCast f k := by
  have itself : Becomes ((pass c).site p f) (.temp u) (.temp u) := ⟨.temp u, .here _, rfl⟩
  obtain ⟨w, same, is⟩ := resolveBecomes (fun _ => rfl) complete.entered n itself
  rw [became] at is
  obtain rfl := encodedTemp (fun _ => rfl) is.symm
  refine ⟨?_, resolveEnds (fun _ => rfl) complete (acyclicOrdered acyclic) trivial List.nodup_nil
    (List.forall_mem_nil _) (by simp) became⟩
  cases same with
  | here => exact .inl rfl
  | cast casts rest =>
    refine .inr (sameDefined sound (.cast casts rest) fun id is => ?_)
    cases is
    exact List.mem_map.mp (castDefined casts)

/-- Lowered code reads no result of a cast, in whatever order the blocks stand, and nothing
that is not defined. -/
theorem loweringLeavesNoAlias (sound : f.violation? p = none)
    (room : ∀ t ∈ f.temps, t.id.toNat + 1 < UInt32.size) (acyclic : CastsAcyclic f)
    (lowers : Lowers c p f f') : ∀ b' ∈ f'.blocks, ∀ j ∈ b'.instrs, ∀ id, j.Uses id →
      (∃ t ∈ f'.temps, t.id = id) ∧
        ∀ b ∈ f.blocks, ∀ i ∈ b.instrs, sameNumberCast i.op = true → id ∉ i.resultIds := by
  intro b' block' j' instr' id uses'
  obtain ⟨externs, s', gives⟩ := lowers
  obtain ⟨start, bs, converts⟩ := convertsNext room gives
  rw [converts.blocks] at block'
  obtain ⟨b, block, rfl⟩ := List.mem_map.mp block'
  obtain ⟨j, instr, rfl⟩ := List.mem_map.mp instr'
  obtain ⟨u, uses, became⟩ := usesRenamed (fun v => resolveLiteral _) uses'
  have once := WellFormed.definesOnce sound
  have read := blocksRead sound converts.trace (fun b hb => hb) (converts.entered once) b block j
    instr u uses
  obtain ⟨ends, plain⟩ := followedEnds sound acyclic (convertsComplete sound room converts) became
  refine ⟨?_, fun b source i member cast result =>
    plain (castResult sound source member cast result)⟩
  obtain ⟨count, counted⟩ := convertsCounted converts
  have kept (known : ∃ t ∈ f.temps, t.id = id) : id ∈ f'.temps.map Temp.id := by
    obtain ⟨t, member, rfl⟩ := known
    exact counted.keeps (noCastKept sound member plain)
  refine List.mem_map.mp ?_
  rcases ends with rfl | known
  · rcases List.mem_append.mp read with known | own
    · exact kept (List.mem_map.mp known)
    · obtain ⟨t, member, rfl⟩ := List.mem_map.mp own
      rw [convertsTemps converts]
      exact List.mem_map_of_mem (List.mem_flatMap.mpr ⟨b, block, List.mem_append_right _ member⟩)
  · exact kept known

theorem squareLeavesNoAlias : CastsAcyclic squareSource ∧
    ∀ b' ∈ squareTarget.blocks, ∀ j ∈ b'.instrs, ∀ id, j.Uses id →
      (∃ t ∈ squareTarget.temps, t.id = id) ∧
        ∀ b ∈ squareSource.blocks, ∀ i ∈ b.instrs, sameNumberCast i.op = true →
          id ∉ i.resultIds := by
  have sound : squareSource.violation? ⟨[], [squareSource]⟩ = none := by decide +kernel
  have room : ∀ t ∈ squareSource.temps, t.id.toNat + 1 < UInt32.size := by decide +kernel
  have acyclic : CastsAcyclic squareSource := earlierAcyclic (by decide +kernel)
  exact ⟨acyclic, loweringLeavesNoAlias sound room acyclic squareLowers⟩

end Ends
end FixedIL.Lowering
