import FixedIL.Proofs.LoweredShape
import Mathlib.Data.List.Perm.Basic

/-!
What a lowered function defines. Sources with repeated definitions are refused, and the ids
handed out lie above all of those that are kept, so that everything is defined once.
-/
namespace FixedIL.Lowering

variable {c : Config} {p : Program} {f f' : Function}

structure DefinesAnew (f f' : Function) : Prop where
  once : f'.DefinesOnce
  blocks : List.Forall₂ (fun b b' => ∀ t ∈ b'.temps, t.id ∈ keptIds b ∨ f.Fresh t.id)
    f.blocks f'.blocks

theorem convertsOnce {externs : List Extern} {n : Nat} {sig : Signature} {s' start : PassState}
    {bs : List Block} (converts : Converts c p f n externs sig f' s' start bs) :
    f.DefinesOnce := by
  obtain ⟨blank, params⟩ := converts.opened
  have each : f.temps.map Temp.id =
      f.blocks.flatMap fun b => b.params.map Temp.id ++ definedIds b.instrs := by
    simp [Function.temps, Block.temps, List.map_flatMap, definedIds, definedTemps]
  rw [Function.DefinesOnce, each]
  exact (List.flatMap_append_perm f.blocks _ _).nodup_iff.mp
    (params.append (blocksEnter converts.trace)).once

theorem lowersOnce (lowers : Lowers c p f f') : f.DefinesOnce := by
  obtain ⟨externs, s', gives⟩ := lowers
  obtain ⟨start, bs, converts⟩ := convertsAny gives
  exact convertsOnce converts

theorem segmentKept {i : Instr} {code : List Instr} (shape : SegmentShape f i code) {id : TempId}
    (defined : id ∈ definedIds code) : id ∈ definedResults i ∨ f.Fresh id := by
  refine (shape.others id defined).imp_left fun result => ?_
  by_cases cast : sameNumberCast i.op = true
  · rw [shape.cast cast] at defined
    cases defined
  · rw [definedResults, if_neg cast]
    exact result

theorem segmentsKept {is : List Instr} {codes : List (List Instr)}
    (shapes : List.Forall₂ (SegmentShape f) is codes) {id : TempId}
    (defined : id ∈ definedIds codes.flatten) : id ∈ is.flatMap definedResults ∨ f.Fresh id := by
  induction shapes with
  | nil => cases defined
  | cons head tail ih =>
    rw [List.flatten_cons, definedIdsAppend] at defined
    rw [List.flatMap_cons]
    rcases List.mem_append.mp defined with here | later
    · exact (segmentKept head here).imp_left (List.mem_append_left _)
    · exact (ih later).imp_left (List.mem_append_right _)

theorem blockKept {format : Fixed.Format} {b b' : Block} (shape : BlockShape format f b b') :
    ∀ t ∈ b'.temps, t.id ∈ keptIds b ∨ f.Fresh t.id := by
  intro t member
  rcases List.mem_append.mp member with param | result
  · rw [shape.params] at param
    obtain ⟨u, source, rfl⟩ := List.mem_map.mp param
    exact .inl (List.mem_append_left _ (List.mem_map.mpr ⟨u, source, rfl⟩))
  · obtain ⟨codes, written, segments⟩ := shape.code
    rw [written] at result
    exact (segmentsKept segments (List.mem_map_of_mem result)).imp_left (List.mem_append_right _)

/-- Lowering never defines a temporary twice. What it defines besides the temporaries of the same
block has an id that nothing in the source knows. -/
theorem loweringDefinesOnce (lowers : Lowers c p f f') (fits : Fits f.idsEnd (handedOut f f')) :
    DefinesAnew f f' := by
  obtain ⟨shape, perm⟩ := lowersCounted lowers fits
  have sublist : (f.blocks.flatMap keptIds).Sublist (f.temps.map Temp.id) := keptSublist f.blocks
  refine ⟨perm.nodup_iff.mpr (List.nodup_append.mpr ⟨freshIdsOnce fits, ?_, ?_⟩),
    shape.blocks.imp fun _ _ => blockKept⟩
  · exact (lowersOnce lowers).sublist sublist
  · rintro id new _ old rfl
    obtain ⟨t, member, same⟩ := List.mem_map.mp (sublist.subset old)
    have below : t.id.toNat < f.idsEnd := Function.tempBelowEnd member _
    have above := (memFreshIds fits new).1
    rw [same] at below
    omega

theorem squareDefinesOnce : Fits squareSource.idsEnd (handedOut squareSource squareTarget) ∧
    DefinesAnew squareSource squareTarget := by
  have fits : Fits squareSource.idsEnd (handedOut squareSource squareTarget) :=
    fitsBelow (by decide +kernel)
  exact ⟨fits, loweringDefinesOnce squareLowers fits⟩

end FixedIL.Lowering
