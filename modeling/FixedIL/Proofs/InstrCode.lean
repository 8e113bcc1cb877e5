import FixedIL.Proofs.LoweredDefinitions
import FixedIL.Proofs.SequenceCode
import Mathlib.Data.List.Forall2

/-!
The code that the instructions of a program leave, whether it is well formed or not: another
instruction, operations on integers, a call with what belongs to it, or nothing.
-/
namespace FixedIL

namespace Emit

def calling (callee : String) (results : List Temp) (args : List Value) (loc : Loc) : Instr :=
  { Instr.blank .call with
    type := callType (results.map Temp.type), results := results, operands := args,
    callee := callee, loc := loc }

def loading (plan : ReturnPlan) (buffer : Value) (loc : Loc) (p : (Ty × TempId) × Nat) : Instr :=
  computing .load p.1.1 [buffer, .int (Int64.ofNat (plan.offset p.2))] p.1.2 loc

def callCode (callee : String) (plan : ReturnPlan) (args : List Value) (ids : List TempId)
    (e : Emission) : List Instr :=
  if plan.usesBuffer then
    computing .stackaddr .ptr [.int (Int64.ofNat e.slots.length), .int 0] e.nextTemp e.loc ::
      calling callee [] (.temp e.nextTemp :: args) e.loc ::
        (plan.types.zip ids).zipIdx.map (loading plan (.temp e.nextTemp) e.loc)
  else [calling callee (tempsOf plan.types ids) args e.loc]

section Calls

variable {callee : String} {plan : ReturnPlan} {args : List Value} {ids : List TempId}

theorem loadsWritten (buffer : Value) (ps : List ((Ty × TempId) × Nat)) (e : Emission) :
    ((ps.mapM fun p => define .load p.1.1 [buffer, .int (Int64.ofNat (plan.offset p.2))]
      p.1.2).run e).2.code = e.code ++ ps.map (loading plan buffer e.loc) := by
  induction ps generalizing e with
  | nil => exact (List.append_nil _).symm
  | cons p rest ih =>
    rw [List.mapM_cons, StateT.run_bind, defineRun]
    exact (ih _).trans (List.append_assoc ..)

theorem callWritten (same : ids.length = plan.types.length) (e : Emission) :
    ((do let _ ← callByPlan callee plan args ids : Emit Unit).run e).2.code =
      e.code ++ callCode callee plan args ids e := by
  unfold callByPlan callCode
  by_cases buffer : plan.usesBuffer
  · simp only [buffer, if_true, loadAllIds plan _ ids same]
    rw [List.append_cons, List.append_cons]
    exact loadsWritten _ _ _
  · simp only [buffer, Bool.false_eq_true, if_false, numberedAll plan.types ids same, pure_bind]
    rfl

end Calls
end Emit

namespace Lowering

open Emit

def extraIds (c : Config) (site : Site) (i : Instr) : Nat :=
  match i.op with
  | .float op => Sequence.between op
  | .sitofp =>
    if i.operands.any fun v => v.intLiteral?.isSome then 0
    else ((i.operands.head?.bind site.typeOf?).map Sequence.betweenWidths).getD 0
  | .fptosi => Sequence.betweenWidths i.type
  | .call =>
    if (redirect? c site.program i.callee).any fun e => e.sig.structReturnIndex?.isSome then 1
    else 0
  | _ => 0

def Given (σ : Value → Value) (i : Instr) (v : Value) : Prop :=
  v.isTemp = true ∨ (∃ n, v = .int n) ∨ ∃ u ∈ i.operands, v = σ u

inductive Leaves (c : Config) (site : Site) (σ : Value → Value) (i : Instr) :
    List Instr → Prop where
  | one {j : Instr} {loc : Loc} (rewritten : Rewritten site σ i j) :
      Leaves c site σ i [{ j with loc := loc }]
  | sequence {t : Temp} {q : TempId → Emit Value} {code : List Instr} (results : i.results = [t])
      (sequenced : Sequenced site σ i q) (length : code.length = extraIds c site i + 1)
      (integer : ∀ j ∈ code, IntegerCode (Given σ i) j)
      (reads : ∀ u ∈ i.operands, ∃ j ∈ code, σ u ∈ j.operands) : Leaves c site σ i code
  | nothing (cast : sameNumberCast i.op = true) : Leaves c site σ i []
  | call {target : CallTarget} {e : Emission} (op : i.op = .call)
      (resolves : Resolves c site i.callee target)
      (args : i.operands.length =
        target.sig.params.length - (if target.plan.usesBuffer then 1 else 0))
      (results : i.results.length = target.plan.types.length) :
      Leaves c site σ i (callCode target.symbol target.plan (i.operands.map σ)
        (i.results.map Temp.id) e)

section Leaves

variable {c : Config} {site : Site} {σ : Value → Value} {i : Instr} {x : Emit Unit}
  {names : List (TempId × Value)}

theorem sequenceEmits {q : TempId → Emit Value} {r : TempId} (sequenced : Sequenced site σ i q) :
    Emits (Given σ i) (extraIds c site i + 1) (i.operands.map σ) (q r) := by
  have ints (n : Int64) : Given σ i (.int n) := .inr (.inl ⟨n, rfl⟩)
  have temps (id : TempId) : Given σ i (.temp id) := .inl rfl
  have given {u : Value} (member : u ∈ i.operands) : Given σ i (σ u) := .inr (.inr ⟨u, member, rfl⟩)
  cases sequenced with
  | @arith op u rest is count float operands =>
    have taken : i.operands.map σ = [σ u, σ (rest.head?.getD u)].take op.operands := by
      rw [← count, operands]
      match rest with
      | [] | [_] => rfl
      | _ :: _ :: _ =>
        rw [operands] at count
        cases op <;> simp [FloatOp.operands] at count
    rw [extraIds, is, taken]
    refine Sequence.floatOpEmits ints temps op (given (by simp [operands])) (given ?_)
    cases rest <;> simp [operands]
  | @compare cmp u v is operands =>
    rw [extraIds, is, operands]
    exact Sequence.compareEmits temps cmp (given (by simp [operands])) (given (by simp [operands]))
  | @ofInt v type is operands typed integer temp =>
    have extra : extraIds c site i = Sequence.betweenWidths type := by
      simp [extraIds, is, operands, temp, typed]
    rw [extra, operands]
    exact Sequence.ofIntEmits ints temps (given (by simp [operands]))
  | @toInt v is operands integer number =>
    rw [extraIds, is, operands]
    exact Sequence.toIntEmits ints temps integer (given (by simp [operands]))

theorem placedLoc (e : Emission) (j : Instr) : ∃ loc, e.placed j = { j with loc := loc } := by
  unfold Emission.placed
  split
  · exact ⟨j.loc, rfl⟩
  · exact ⟨e.loc, rfl⟩

theorem loweredLeaves (lowered : Lowered c site σ i x names) (e : Emission) :
    ∃ code, (x.run e).2.code = e.code ++ code ∧ Leaves c site σ i code := by
  cases lowered with
  | @one j rewritten =>
    obtain ⟨loc, placed⟩ := placedLoc e j
    exact ⟨[{ j with loc := loc }], by rw [← placed]; rfl, .one rewritten⟩
  | @sequence t q results sequenced =>
    obtain ⟨-, code, added, length, integer, reads⟩ :=
      sequenceEmits (c := c) (r := t.id) sequenced e
    exact ⟨code, added, .sequence results sequenced length integer fun u member =>
      reads (σ u) (List.mem_map_of_mem member)⟩
  | same cast => exact ⟨[], (List.append_nil _).symm, .nothing cast⟩
  | call op resolves args results =>
    have same : (i.results.map Temp.id).length = _ := (List.length_map _).trans results
    exact ⟨_, callWritten same e, .call op resolves args results⟩

end Leaves

def Wrote (c : Config) (site : Site) (i : Instr) (code : List Instr) : Prop :=
  ∃ s : PassState, Entered site s ∧ Leaves c site (s.operand site.encoding) i code

/-- A function made of another one: behind the mapped parameters each instruction has left its
code, whose operands are followed in the end. -/
structure FunctionCode (c : Config) (p : Program) (f f' : Function) : Prop where
  name : f'.name = f.name
  sig : f'.sig = (((pass c).site p f).signature? f.name).getD default
  params : f'.blocks.map Block.params = f.blocks.map (mappedParams ((pass c).site p f))
  code : ∃ s codes, Entered ((pass c).site p f) s ∧
    List.Forall₂ (Wrote c ((pass c).site p f)) f.code codes ∧
    f'.code = codes.flatten.map
      (Instr.rename (Pass.resolve s ((pass c).site p f).encoding f.nextTemp.toNat))

section Functions

variable {c : Config} {site : Site} {p p' : Program} {f f' : Function} {b : Block} {is : List Instr}
  {bs bs' : List Block} {s s' : PassState} {externs externs' : List Extern} {sig : Signature}

theorem traceWrote (once : site.function.DefinesOnce) (block : b ∈ site.function.blocks)
    (trace : Trace c site is s s') (within : ∀ i ∈ is, i ∈ b.instrs) (entered : Entered site s) :
    Entered site s' ∧ ∃ codes, s'.emission.code = s.emission.code ++ codes.flatten ∧
      List.Forall₂ (Wrote c site) is codes := by
  induction trace with
  | nil s => exact ⟨entered, [], (List.append_nil _).symm, .nil⟩
  | @cons i rest x names s mid s' unseen lowered leads tail ih =>
    obtain ⟨code, added, leaves⟩ := loweredLeaves lowered (located s i.loc).emission
    rw [← leads.emission] at added
    have next : Entered site mid :=
      enteredStep once block (within i List.mem_cons_self) entered lowered leads.values
    obtain ⟨entered', codes, added', wrote⟩ :=
      ih (fun i hi => within i (List.mem_cons_of_mem _ hi)) next
    refine ⟨entered', code :: codes, ?_, .cons ⟨s, entered, leaves⟩ wrote⟩
    rw [added', added, List.flatten_cons, List.append_assoc]
    rfl

theorem blocksWrote (once : site.function.DefinesOnce) (trace : BlocksTrace c site bs s bs' s')
    (within : ∀ b ∈ bs, b ∈ site.function.blocks) (entered : Entered site s) :
    Entered site s' ∧ bs'.map Block.params = bs.map (mappedParams site) ∧
      ∃ codes, bs'.flatMap Block.instrs = codes.flatten ∧
        List.Forall₂ (Wrote c site) (bs.flatMap Block.instrs) codes := by
  induction trace with
  | nil s => exact ⟨entered, rfl, [], rfl, .nil⟩
  | @cons b rest converted s mid s' trace tail ih =>
    obtain ⟨entered', codes, added, wrote⟩ :=
      traceWrote once (within b List.mem_cons_self) trace (fun i instr => instr) entered
    obtain ⟨entered'', params, codes', added', wrote'⟩ :=
      ih (fun b hb => within b (List.mem_cons_of_mem _ hb)) entered'
    have written : mid.emission.code = codes.flatten := added
    refine ⟨entered'', congrArg _ params, codes ++ codes', ?_, List.rel_append wrote wrote'⟩
    rw [List.flatMap_cons, written, added', List.flatten_append]

theorem renamedCode (ρ : Value → Value) (bs : List Block) :
    (bs.map (renamedBlock ρ)).flatMap Block.instrs =
      (bs.flatMap Block.instrs).map (Instr.rename ρ) := by
  rw [List.flatMap_map, List.map_flatMap]
  rfl

theorem convertsCode {n : Nat} {start : PassState}
    (converts : Converts c p f n externs sig f' s' start bs) :
    f'.blocks.map Block.params = f.blocks.map (mappedParams ((pass c).site p f)) ∧
      ∃ codes, Entered ((pass c).site p f) s' ∧
        List.Forall₂ (Wrote c ((pass c).site p f)) f.code codes ∧
        f'.code = codes.flatten.map
          (Instr.rename (Pass.resolve s' ((pass c).site p f).encoding f.nextTemp.toNat)) := by
  have once : f.DefinesOnce := convertsOnce converts
  obtain ⟨entered, params, codes, written, wrote⟩ :=
    blocksWrote once converts.trace (fun b hb => hb) (converts.entered once)
  refine ⟨?_, codes, entered, wrote, ?_⟩
  · rw [converts.blocks, List.map_map]
    exact params
  · rw [Function.code, converts.blocks, renamedCode, written]
    rfl

theorem functionCode (gives : ((pass c).function p f ((pass c).sigFor p f)).Gives (Pass.begun externs) f' s') :
    FunctionCode c p f f' := by
  obtain ⟨start, bs, converts⟩ := convertsAny gives
  obtain ⟨params, codes, entered, wrote, written⟩ := convertsCode converts
  exact ⟨converts.name, converts.sig, params, s', codes, entered, wrote, written⟩

theorem functionsCode {fs fs' : List Function}
    (trace : Pass.Runs (pass c) p fs externs fs' externs') :
    List.Forall₂ (FunctionCode c p) fs fs' := by
  induction trace with
  | nil externs => exact .nil
  | cons gives tail ih => exact .cons (functionCode gives) ih

end Functions

end Lowering
end FixedIL
