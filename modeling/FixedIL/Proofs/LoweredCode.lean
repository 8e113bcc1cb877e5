import FixedIL.Proofs.LoweredInstr
import FixedIL.Proofs.Writing

/-!
The code that stands for an instruction, whatever its operands have become: which temporaries it
defines and with which types, and which operations it needs.
-/
namespace FixedIL.Lowering

open Emit PassM

def definedResults (i : Instr) : List TempId :=
  if sameNumberCast i.op then [] else i.results.map Temp.id

def admits (source op : Opcode) : Bool :=
  op.floatFree && (!op.divides || source.divides || source = .float .div || source = .float .sqrt)

def straight (source op : Opcode) : Bool :=
  admits source op && (source.isTerminator || !op.isTerminator)

theorem straightAdmits {source op : Opcode} (straight : straight source op = true) :
    admits source op = true := (Bool.and_eq_true_iff.mp straight).1

theorem integralStraight {source op : Opcode} (integral : op.integral = true)
    (admitted : admits source op = true) : straight source op = true := by
  have plain : op.isTerminator = false := by
    revert integral
    cases op <;> simp [Opcode.integral, Opcode.isTerminator]
  simp [straight, admitted, plain]

inductive Retypes (c : Config) (site : Site) (i : Instr) : Temp → Prop where
  | constant {t : Temp} (result : i.results = [t]) (op : i.op = .iconst) :
      Retypes c site i ⟨t.id, i.type⟩
  | mapped {t : Temp} (result : i.results = [t])
      (op : i.op = .fconst ∨ i.op = .select ∨ i.op = .load) :
      Retypes c site i ⟨t.id, site.encoding.mapTy i.type⟩
  | kept {t : Temp} (result : t ∈ i.results) (op : copied i.op = true ∨ i.op = .stackaddr) :
      Retypes c site i t
  | encoded {t : Temp} (result : i.results = [t])
      (op : i.op = .sitofp ∨ (i.type.isFloat ∧ ∃ op, i.op = .float op)) :
      Retypes c site i ⟨t.id, .i32⟩
  | compared {t : Temp} {cmp : FloatCompare} (result : i.results = [t]) (op : i.op = .fcmp cmp) :
      Retypes c site i ⟨t.id, .i1⟩
  | narrowed {t : Temp} (result : i.results = [t]) (op : i.op = .fptosi)
      (integer : i.type.isInteger) : Retypes c site i ⟨t.id, i.type⟩
  | called {t : Temp} {target : CallTarget} (op : i.op = .call)
      (resolves : Resolves c site i.callee target)
      (result : t ∈ tempsOf target.plan.types (i.results.map Temp.id)) : Retypes c site i t

section Writes

variable {c : Config} {site : Site} {σ ρ : Value → Value} {i j : Instr} {r : TempId}

theorem renamedLiteral (literals : ∀ v, v.isTemp = false → ρ v = v) {v : Value} {n : Int64}
    (literal : v.intLiteral? = some n) : ρ v = v := by
  refine literals v ?_
  cases v with
  | temp id => cases literal
  | _ => rfl

theorem rewrittenRename (literals : ∀ v, v.isTemp = false → ρ v = v)
    (rewritten : Rewritten site σ i j) : Rewritten site (ρ ∘ σ) i (j.rename ρ) := by
  have redefined (t : Temp) (op : Opcode) (type : Ty) (operands : List Value) :
      (redefinition i t op type operands).rename ρ =
        redefinition i t op type (operands.map ρ) := rfl
  have mapTwice : (List.map ρ ·) ∘ (List.map σ ·) = (List.map (ρ ∘ σ) ·) :=
    funext fun vs => List.map_map
  cases rewritten with
  | intConst op operands results literal =>
    rw [redefined, List.map_singleton, renamedLiteral literals literal]
    exact .intConst op operands results literal
  | floatConst op operands results literal =>
    rw [redefined, List.map_singleton, literals _ rfl]
    exact .floatConst op operands results literal
  | intLiteral op operands results literal =>
    rw [redefined, List.map_singleton, literals _ rfl]
    exact .intLiteral op operands results literal
  | select op operands results =>
    rw [redefined, List.map_map]
    exact .select op operands results
  | load op operands results =>
    rw [redefined, List.map_map]
    exact .load op operands results
  | store op operands results =>
    simp only [Instr.rename, List.map_map]
    exact .store op operands results
  | stackaddr op operands results slot literal nonneg =>
    simp only [Instr.rename, List.map_cons, literals _ (rfl : (Value.int _).isTemp = false),
      List.map_drop, List.map_map, mapTwice]
    exact .stackaddr op operands results slot literal nonneg
  | copied op =>
    simp only [Instr.rename, List.map_map, mapTwice]
    exact .copied op

theorem rewrittenRetypes (rewritten : Rewritten site σ i j) : ∀ t ∈ j.results, Retypes c site i t := by
  intro t result
  cases rewritten with
  | intConst op _ results _ =>
    cases List.mem_singleton.mp result
    exact .constant results op
  | floatConst op _ results _ =>
    cases List.mem_singleton.mp result
    exact .mapped results (.inl op)
  | intLiteral op _ results _ =>
    cases List.mem_singleton.mp result
    exact .encoded results (.inl op)
  | select op _ results =>
    cases List.mem_singleton.mp result
    exact .mapped results (.inr (.inl op))
  | load op _ results =>
    cases List.mem_singleton.mp result
    exact .mapped results (.inr (.inr op))
  | store => cases result
  | stackaddr op => exact .kept result (.inr op)
  | copied op => exact .kept result (.inl op)

theorem rewrittenKeeps (rewritten : Rewritten site σ i j) :
    j.results.map Temp.id = definedResults i ∧ straight i.op j.op = true := by
  cases rewritten with
  | intConst op _ results _ | floatConst op _ results _ | intLiteral op _ results _
  | select op _ results | load op _ results =>
    exact ⟨by simp [redefinition, definedResults, op, results, sameNumberCast], by rw [op]; rfl⟩
  | store op _ results =>
    exact ⟨by simp [definedResults, op, results, sameNumberCast, Instr.blank], by rw [op]; rfl⟩
  | stackaddr op _ _ _ _ _ =>
    exact ⟨by simp [definedResults, op, sameNumberCast], by rw [op]; rfl⟩
  | copied op =>
    have kept : sameNumberCast i.op = false := copiedNoCast op
    have free : i.op.floatFree = true := by
      revert op
      cases i.op <;> simp [Lowering.copied, Opcode.floatFree]
    refine ⟨by simp [definedResults, kept], ?_⟩
    cases d : i.op.divides <;> cases e : i.op.isTerminator <;> simp [straight, admits, free, d, e]

theorem rewrittenLoc (rewritten : Rewritten site σ i j) : j.loc = i.loc := by
  cases rewritten <;> rfl

structure Settled (ρ σ : Value → Value) (i : Instr) : Prop where
  operands : ∀ v ∈ i.operands, ρ (σ v) = σ v
  arguments : ∀ args ∈ i.branchArgs, ∀ v ∈ args, ρ (σ v) = σ v

theorem mapSettled {vs : List Value} (settled : ∀ v ∈ vs, ρ (σ v) = σ v) :
    (vs.map σ).map ρ = vs.map σ := by
  rw [List.map_map]
  exact List.map_congr_left settled

theorem rewrittenSettled (literals : ∀ v, v.isTemp = false → ρ v = v)
    (rewritten : Rewritten site σ i j) (settled : Settled ρ σ i) : j.rename ρ = j := by
  have operands := mapSettled settled.operands
  have arguments : (i.branchArgs.map (·.map σ)).map (·.map ρ) = i.branchArgs.map (·.map σ) := by
    rw [List.map_map]
    exact List.map_congr_left fun args member => mapSettled (settled.arguments args member)
  have redefined {t : Temp} {op : Opcode} {type : Ty} {vs : List Value} (same : vs.map ρ = vs) :
      (redefinition i t op type vs).rename ρ = redefinition i t op type vs := by
    simp only [Instr.rename, redefinition, same]
    rfl
  cases rewritten with
  | intConst op _ _ literal =>
    exact redefined (by rw [List.map_singleton, renamedLiteral literals literal])
  | floatConst | intLiteral =>
    exact redefined (by rw [List.map_singleton, literals _ rfl])
  | select | load => exact redefined operands
  | store => simp only [Instr.rename, operands]; rfl
  | stackaddr =>
    simp only [Instr.rename, List.map_cons, List.map_drop, operands, arguments,
      literals _ (rfl : (Value.int _).isTemp = false)]
  | copied => simp only [Instr.rename, operands, arguments]

theorem sequencedComposed {q : TempId → Emit Value} {t : Temp} (results : i.results = [t])
    (literals : ∀ v, v.isTemp = false → ρ v = v) (sequenced : Sequenced site σ i q) :
    ∃ q' type, Sequenced site (ρ ∘ σ) i q' ∧ Retypes c site i ⟨t.id, type⟩ ∧
      Composed ρ (straight i.op) i.loc ρ (q t.id) (q' t.id) [⟨t.id, type⟩] ∧
      sameNumberCast i.op = false ∧ (Settled ρ σ i → q' = q) := by
  have ints (n : Int64) : ρ (.int n) = .int n := literals _ rfl
  have total (op : Opcode) (integral : op.integral = true) (divides : op.divides = false) :
      straight i.op op = true :=
    integralStraight integral (by simp [admits, Opcode.integralFloatFree integral, divides])
  cases sequenced with
  | @arith op u rest is count float operands =>
    refine ⟨_, .i32, .arith is count float operands, .encoded results (.inr ⟨float, op, is⟩), ?_,
      by rw [is]; rfl, fun settled => ?_⟩
    · have any (heavy : op = .div ∨ op = .sqrt) (op' : Opcode) (integral : op'.integral = true) :
          straight i.op op' = true := by
        refine integralStraight integral ?_
        rcases heavy with rfl | rfl <;> simp [admits, Opcode.integralFloatFree integral, is]
      by_cases div : op = .div
      · subst div
        exact Sequence.composedDiv ints (any (.inl rfl))
      · by_cases root : op = .sqrt
        · subst root
          exact Sequence.composedSqrt ints (any (.inr rfl))
        · exact Sequence.composedFloatOp ints total op div root
    · have first := settled.operands u (operands ▸ List.mem_cons_self)
      have second := settled.operands (rest.head?.getD u) (by cases rest <;> simp [operands])
      simp only [Function.comp, first, second]
  | @compare cmp u v is operands =>
    refine ⟨_, _, .compare is operands, .compared results is, Sequence.composedCompare total _,
      by rw [is]; rfl, fun settled => ?_⟩
    have first := settled.operands u (by simp [operands])
    have second := settled.operands v (by simp [operands])
    simp only [Function.comp, first, second]
  | @ofInt v type is operands typed integer temp =>
    refine ⟨_, _, .ofInt is operands typed integer temp, .encoded results (.inl is),
      Sequence.composedOfInt ints total _, by rw [is]; rfl, fun settled => ?_⟩
    simp only [Function.comp, settled.operands v (by simp [operands])]
  | @toInt v is operands integer number =>
    refine ⟨_, _, .toInt is operands integer number, .narrowed results is integer,
      Sequence.composedToInt ints total _, by rw [is]; rfl, fun settled => ?_⟩
    simp only [Function.comp, settled.operands v (by simp [operands])]

theorem loweredComposed {x : Emit Unit} {names : List (TempId × Value)}
    (literals : ∀ v, v.isTemp = false → ρ v = v) (lowered : Lowered c site σ i x names) :
    ∃ y names' ts, Lowered c site (ρ ∘ σ) i y names' ∧
      Composed ρ (straight i.op) i.loc id x y ts ∧ ts.map Temp.id = definedResults i ∧
      (∀ t ∈ ts, Retypes c site i t) ∧ (Settled ρ σ i → y = x) := by
  cases lowered with
  | one rewritten =>
    obtain ⟨results, admitted⟩ := rewrittenKeeps rewritten
    refine ⟨_, _, _, .one (rewrittenRename literals rewritten),
      .append admitted fun _ => rewrittenLoc rewritten, results, rewrittenRetypes rewritten,
      fun settled => ?_⟩
    rw [rewrittenSettled literals rewritten settled]
  | @sequence t q results sequenced =>
    obtain ⟨q', type, sequenced', retypes, composed, kept, alone⟩ :=
      sequencedComposed (c := c) results literals sequenced
    refine ⟨_, _, _, .sequence results sequenced', composedDiscard composed, ?_,
      fun u member => ?_, fun settled => ?_⟩
    · rw [definedResults, kept, results]
      rfl
    · rw [List.mem_singleton.mp member]
      exact retypes
    · rw [alone settled]
  | same cast operands results =>
    refine ⟨_, _, [], .same cast operands results, .pure _, ?_, fun u member => ?_, fun _ => rfl⟩
    · rw [definedResults, cast]
      rfl
    · cases member
  | @call target op resolves args results =>
    have count : (i.results.map Temp.id).length = target.plan.types.length := by
      rw [List.length_map, results]
    have ok : straight i.op .call = true ∧ straight i.op .stackaddr = true ∧
        straight i.op .load = true := by
      rw [op]
      exact ⟨rfl, rfl, rfl⟩
    refine ⟨_, _, tempsOf target.plan.types (i.results.map Temp.id), .call op resolves args results,
      composedCall (fun n => literals _ rfl) ok count (by simp), ?_,
      fun t result => .called op resolves result, fun settled => ?_⟩
    · rw [tempsOfIds count]
      simp [definedResults, op, sameNumberCast]
    · rw [← List.map_map, mapSettled settled.operands]

end Writes

end FixedIL.Lowering
