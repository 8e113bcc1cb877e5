import FixedIL.Lowering.Sequence
import FixedIL.Proofs.StraightLine

/-!
What an emission writes, apart from what the code does: it only adds code, and commutes with
putting other operands in place of the given ones.
-/
namespace FixedIL

def Instr.rename (ρ : Value → Value) (i : Instr) : Instr :=
  { i with operands := i.operands.map ρ, branchArgs := i.branchArgs.map (·.map ρ) }

def definedTemps (code : List Instr) : List Temp := code.flatMap Instr.results

def definedIds (code : List Instr) : List TempId := (definedTemps code).map Temp.id

theorem definedTempsAppend (code code' : List Instr) :
    definedTemps (code ++ code') = definedTemps code ++ definedTemps code' := by
  simp [definedTemps]

theorem definedIdsAppend (code code' : List Instr) :
    definedIds (code ++ code') = definedIds code ++ definedIds code' := by
  simp [definedIds, definedTemps]

theorem zipIdxGet {α β : Type} (xs : List α) (ys : List β) (same : ys.length = xs.length) :
    xs.zipIdx.map (fun p => (p, ys[p.2]?)) =
      (xs.zip ys).zipIdx.map fun p => ((p.1.1, p.2), some p.1.2) := by
  apply List.ext_getElem
  · simp [same]
  · intro k left right
    have inside : k < ys.length := by simpa [same] using left
    simp [inside]

namespace Emit

variable {α β : Type} {ρ : Value → Value} {allowed : Opcode → Bool} {f : α → α} {f' : β → β}

/-- `x` writes `code`; where `ρ` leaves alone what is defined there, `y` writes the same with
operands replaced by `ρ`. -/
structure WritesAt (ρ : Value → Value) (f : α → α) (x y : Emit α) (e : Emission)
    (code : List Instr) : Prop where
  appended : (x.run e).2.code = e.code ++ code
  renamed : (∀ id ∈ definedIds code, ρ (.temp id) = .temp id) → ∀ old,
    y.run { e with code := old } =
      (f (x.run e).1, { (x.run e).2 with code := old ++ code.map (Instr.rename ρ) })

def Writes (ρ : Value → Value) (f : α → α) (x y : Emit α) : Prop :=
  ∀ e, ∃ code, WritesAt ρ f x y e code

theorem writesPure {a : α} : Writes ρ f (pure a) (pure (f a)) := by
  refine fun e => ⟨[], (List.append_nil _).symm, fun _ old => ?_⟩
  rw [List.map_nil, List.append_nil]
  rfl

theorem writesBind {x y : Emit α} {g h : α → Emit β} (first : Writes ρ f x y)
    (second : ∀ a, Writes ρ f' (g a) (h (f a))) : Writes ρ f' (x >>= g) (y >>= h) := by
  intro e
  obtain ⟨code, one⟩ := first e
  obtain ⟨code', two⟩ := second (x.run e).1 (x.run e).2
  refine ⟨code ++ code', ?_, fun fixed old => ?_⟩
  · rw [StateT.run_bind]
    exact two.appended.trans (by rw [one.appended, List.append_assoc])
  · rw [definedIdsAppend] at fixed
    rw [StateT.run_bind, one.renamed fun id hid => fixed id (List.mem_append_left _ hid)]
    refine (two.renamed (fun id hid => fixed id (List.mem_append_right _ hid)) _).trans ?_
    rw [StateT.run_bind, List.map_append, List.append_assoc]
    rfl

theorem placedResults (e : Emission) (i : Instr) : (e.placed i).results = i.results := by
  unfold Emission.placed
  split <;> rfl

theorem placedOp (e : Emission) (i : Instr) : (e.placed i).op = i.op := by
  unfold Emission.placed
  split <;> rfl

theorem placedRename (e : Emission) (i : Instr) (ρ : Value → Value) :
    e.placed (i.rename ρ) = (e.placed i).rename ρ := by
  cases line : i.loc.hasLine <;> simp [Emission.placed, Instr.rename, line]

theorem appendWrites (i : Instr) (e : Emission) :
    WritesAt ρ id (append i) (append (i.rename ρ)) e [e.placed i] := by
  refine ⟨rfl, fun _ old => ?_⟩
  rw [List.map_singleton, ← placedRename]
  rfl

theorem writesDefine {op : Opcode} {type : Ty} {operands operands' : List Value} {id : TempId}
    (same : operands' = operands.map ρ) :
    Writes ρ ρ (define op type operands id) (define op type operands' id) := by
  subst same
  intro e
  have writes : WritesAt ρ _ (append { Instr.blank op with
      type := type, operands := operands, results := [⟨id, type⟩] }) _ e _ := appendWrites _ e
  refine ⟨_, writes.appended, fun fixed old => ?_⟩
  have value : ρ (.temp id) = .temp id := fixed id (by simp [definedIds, definedTemps, placedResults])
  have state := congrArg Prod.snd (writes.renamed fixed old)
  exact Prod.ext value.symm state

theorem writesEmit {op : Opcode} {type : Ty} {operands operands' : List Value}
    (same : operands' = operands.map ρ) :
    Writes ρ ρ (emit op type operands) (emit op type operands') := by
  subst same
  intro e
  refine ⟨[computing op type operands e.nextTemp e.loc], ?_, fun fixed old => ?_⟩
  · rw [emitRun]
    rfl
  · rw [emitRun, emitRun, fixed e.nextTemp (List.mem_singleton_self _)]
    rfl

theorem writesAddSlot {size align : UInt32} :
    Writes ρ id (addSlot size align) (addSlot size align) := by
  refine fun e => ⟨[], (List.append_nil _).symm, fun _ old => ?_⟩
  rw [List.map_nil, List.append_nil]
  rfl

/-- Emissions put together from single instructions, each at the place `l` or at none of its own,
and from frame slots. The other side has its operands replaced by `ρ`. -/
inductive Composed (ρ : Value → Value) (allowed : Opcode → Bool) (l : Loc) :
    {α : Type} → (α → α) → Emit α → Emit α → List Temp → Prop where
  | pure {α : Type} {f : α → α} (a : α) : Composed ρ allowed l f (pure a) (pure (f a)) []
  | bind {α β : Type} {f : α → α} {f' : β → β} {x y : Emit α} {g h : α → Emit β}
      {r r' : List Temp} (first : Composed ρ allowed l f x y r)
      (second : ∀ a, Composed ρ allowed l f' (g a) (h (f a)) r') :
      Composed ρ allowed l f' (x >>= g) (y >>= h) (r ++ r')
  | append {i : Instr} (ok : allowed i.op = true) (place : i.loc.hasLine = true → i.loc = l) :
      Composed ρ allowed l id (append i) (append (i.rename ρ)) i.results
  | define {op : Opcode} {type : Ty} {operands operands' : List Value} {id : TempId}
      (ok : allowed op = true) (same : operands' = operands.map ρ) :
      Composed ρ allowed l ρ (define op type operands id) (define op type operands' id) [⟨id, type⟩]
  | emit {op : Opcode} {type : Ty} {operands operands' : List Value} (ok : allowed op = true)
      (same : operands' = operands.map ρ) :
      Composed ρ allowed l ρ (emit op type operands) (emit op type operands') []
  | slot {size align : UInt32} :
      Composed ρ allowed l id (addSlot size align) (addSlot size align) []

theorem composedWrites {l : Loc} {x y : Emit α} {r : List Temp}
    (composed : Composed ρ allowed l f x y r) : Writes ρ f x y := by
  induction composed with
  | pure a => exact writesPure
  | bind first second ih ih' => exact writesBind ih ih'
  | append ok place => exact fun e => ⟨_, appendWrites _ e⟩
  | define ok same => exact writesDefine same
  | emit ok same => exact writesEmit same
  | slot => exact writesAddSlot

section Composed

variable {l : Loc}

theorem composedDiscard {x y : Emit α} {r : List Temp} (composed : Composed ρ allowed l f x y r) :
    Composed ρ allowed l id (do let _ ← x) (do let _ ← y) r := by
  have both : Composed ρ allowed l id (x >>= fun _ => pure PUnit.unit)
      (y >>= fun _ => pure PUnit.unit) (r ++ []) := .bind composed fun _ => .pure _
  rwa [List.append_nil] at both

theorem composedMapM {γ : Type} {g h : γ → Emit β} {f : β → β} {r : γ → List Temp}
    (each : ∀ c, Composed ρ allowed l f (g c) (h c) (r c)) (cs : List γ) :
    Composed ρ allowed l (List.map f) (cs.mapM g) (cs.mapM h) (cs.flatMap r) := by
  induction cs with
  | nil => exact .pure _
  | cons c cs ih =>
    rw [List.mapM_cons, List.mapM_cons, List.flatMap_cons]
    refine .bind (each c) fun b => ?_
    rw [← List.append_nil (cs.flatMap r)]
    exact .bind ih fun bs => .pure _

theorem numberedAll (types : List Ty) (ids : List TempId) (same : ids.length = types.length) :
    numbered types ids = pure ((types.zip ids).map fun p => ⟨p.2, p.1⟩) := by
  have each : (fun p : Ty × Nat => (do return ⟨← idOr ids[p.2]?, p.1⟩ : Emit Temp)) =
      (fun q : (Ty × Nat) × Option TempId => do return ⟨← idOr q.2, q.1.1⟩) ∘
        fun p => (p, ids[p.2]?) := rfl
  unfold numbered
  rw [each, ← List.mapM_map, zipIdxGet types ids same, List.mapM_map]
  refine (List.mapM_pure (f := fun p : (Ty × TempId) × Nat => (⟨p.1.2, p.1.1⟩ : Temp))).trans ?_
  have firsts := List.zipIdx_map_fst 0 (types.zip ids)
  conv =>
    rhs
    rw [← firsts, List.map_map]
  rfl

theorem loadAllIds (plan : ReturnPlan) (buffer : Value) (ids : List TempId)
    (same : ids.length = plan.types.length) :
    loadAll plan buffer ids = (plan.types.zip ids).zipIdx.mapM fun p =>
      define .load p.1.1 [buffer, .int (Int64.ofNat (plan.offset p.2))] p.1.2 := by
  have each : (fun p : Ty × Nat => (do
      define .load p.1 [buffer, .int (Int64.ofNat (plan.offset p.2))] (← idOr ids[p.2]?) :
        Emit Value)) =
      (fun q : (Ty × Nat) × Option TempId => do
        define .load q.1.1 [buffer, .int (Int64.ofNat (plan.offset q.1.2))] (← idOr q.2)) ∘
        fun p => (p, ids[p.2]?) := rfl
  unfold loadAll
  rw [each, ← List.mapM_map, zipIdxGet plan.types ids same, List.mapM_map]
  rfl

theorem composedCallDefining {callee : String} {results : List Temp} {args args' : List Value}
    (ok : allowed .call = true) (renamed : args' = args.map ρ) :
    Composed ρ allowed l id (callDefining callee results args) (callDefining callee results args')
      results := by
  subst renamed
  exact .append ok nofun

def tempsOf (types : List Ty) (ids : List TempId) : List Temp :=
  (types.zip ids).map fun p => ⟨p.2, p.1⟩

theorem tempsOfIds {types : List Ty} {ids : List TempId} (same : ids.length = types.length) :
    (tempsOf types ids).map Temp.id = ids := by
  rw [tempsOf, List.map_map]
  exact List.map_snd_zip (Nat.le_of_eq same)

theorem zipIdxTemps (types : List Ty) (ids : List TempId) :
    (types.zip ids).zipIdx.flatMap (fun p => [⟨p.1.2, p.1.1⟩]) = tempsOf types ids := by
  have firsts := List.zipIdx_map_fst 0 (types.zip ids)
  conv =>
    rhs
    rw [tempsOf, ← firsts, List.map_map, List.map_eq_flatMap]
  rfl

theorem composedCall {callee : String} {plan : ReturnPlan} {args args' : List Value}
    {ids : List TempId} (literals : ∀ n, ρ (.int n) = .int n)
    (ok : allowed .call = true ∧ allowed .stackaddr = true ∧ allowed .load = true)
    (same : ids.length = plan.types.length) (renamed : args' = args.map ρ) :
    Composed ρ allowed l id (do let _ ← callByPlan callee plan args ids)
      (do let _ ← callByPlan callee plan args' ids) (tempsOf plan.types ids) := by
  obtain ⟨call, address, load⟩ := ok
  unfold callByPlan
  by_cases buffer : plan.usesBuffer
  · simp only [buffer, if_true]
    refine composedDiscard (f := List.map ρ) (.bind (r := []) .slot fun slot => ?_)
    refine .bind (f := ρ) (r := []) (.emit address (by simp [literals])) fun pointer => ?_
    refine .bind (r := []) (composedCallDefining call (by simp [renamed])) fun _ => ?_
    simp only [loadAllIds plan _ ids same]
    have each (p : (Ty × TempId) × Nat) :
        Composed ρ allowed l ρ
          (define .load p.1.1 [pointer, .int (Int64.ofNat (plan.offset p.2))] p.1.2)
          (define .load p.1.1 [ρ pointer, .int (Int64.ofNat (plan.offset p.2))] p.1.2)
          [⟨p.1.2, p.1.1⟩] := .define load (by simp [literals])
    have loads := composedMapM each (plan.types.zip ids).zipIdx
    rwa [zipIdxTemps] at loads
  · simp only [buffer]
    refine composedDiscard (f := id) ?_
    simp only [numberedAll plan.types ids same, Bool.false_eq_true, if_false, pure_bind]
    rw [← List.append_nil (tempsOf plan.types ids)]
    exact .bind (f := id) (composedCallDefining call renamed) fun _ => .pure _

end Composed

theorem writtenHead {op : Opcode} {type : Ty} {operands : List Value} {g h : Value → Emit α}
    {r : List Temp} {l : Loc} (rest : ∀ v, Composed ρ allowed l f (g v) (h (ρ v)) r)
    (e : Emission) :
    ((emit op type operands >>= g).written e).head? =
      some (computing op type operands e.nextTemp e.loc) := by
  obtain ⟨code, later⟩ := composedWrites (rest (.temp e.nextTemp)) (emitted op type operands e)
  have appended := later.appended
  rw [written, StateT.run_bind, emitRun]
  change (((g (.temp e.nextTemp)).run (emitted op type operands e)).2.code.drop _).head? = _
  rw [appended, emitted, List.append_assoc, List.drop_left]
  rfl

end Emit

def Opcode.integral : Opcode → Bool
  | .iconst | .int _ | .icmp _ | .sext | .zext | .trunc | .select => true
  | _ => false

def Opcode.floatFree : Opcode → Bool
  | .fconst | .float _ | .frem | .fcmp _ | .sitofp | .fptosi | .fpext | .fptrunc | .tofixed
  | .fromfixed => false
  | _ => true

theorem Opcode.integralFloatFree {op : Opcode} (integral : op.integral = true) :
    op.floatFree = true := by
  cases op <;> first | rfl | cases integral

def Opcode.divides : Opcode → Bool
  | .int .sdiv | .int .udiv | .int .srem | .int .urem => true
  | _ => false

namespace Lowering.Sequence

open Emit

variable {β : Type} {ρ : Value → Value} {allowed : Opcode → Bool} {f : β → β} {a b v : Value}
  {r : TempId} {ids : List Temp} {l : Loc}

theorem composedNext {op : Opcode} {type : Ty} {operands operands' : List Value}
    {g h : Value → Emit β} (ok : allowed op = true) (same : operands' = operands.map ρ)
    (rest : ∀ v, Composed ρ allowed l f (g v) (h (ρ v)) ids) :
    Composed ρ allowed l f (emit op type operands >>= g) (emit op type operands' >>= h) ids :=
  .bind (r := []) (.emit ok same) rest

section Dividing

variable (literals : ∀ n, ρ (.int n) = .int n) (ok : ∀ op, op.integral → allowed op = true)

include literals ok

theorem composedMagnitude :
    Composed ρ allowed l ρ (magnitude a v) (magnitude (ρ a) (ρ v)) [] := by
  refine composedNext (ok _ rfl) (by simp [imm, literals]) fun negated => ?_
  refine composedNext (ok _ rfl) rfl fun narrow => ?_
  exact .emit (ok _ rfl) rfl

theorem composedScaleBy : Composed ρ allowed l ρ (scaleBy a v) (scaleBy (ρ a) (ρ v)) [] := by
  refine composedNext (ok _ rfl) rfl fun product => ?_
  refine composedNext (ok _ rfl) (by simp [imm, literals]) fun doubled => ?_
  exact .emit (ok _ rfl) (by simp [imm, literals])

theorem composedDivBegun : ∃ g h : Value → Emit Value,
    div a b r = (emit (.icmp .eq) .i1 [b, imm 0] >>= g) ∧
    div (ρ a) (ρ b) r = (emit (.icmp .eq) .i1 [ρ b, imm 0] >>= h) ∧
    ∀ v, Composed ρ allowed l ρ (g v) (h (ρ v)) [⟨r, .i32⟩] := by
  refine ⟨_, _, rfl, rfl, fun bIsZero => ?_⟩
  refine composedNext (ok _ rfl) (by simp [imm, literals]) fun aIsZero => ?_
  refine composedNext (ok _ rfl) (by simp [imm, literals]) fun aIsNeg => ?_
  refine composedNext (ok _ rfl) (by simp [imm, literals]) fun bIsNeg => ?_
  refine .bind (r := []) (composedMagnitude literals ok) fun absA => ?_
  refine .bind (r := []) (composedMagnitude literals ok) fun absB => ?_
  refine composedNext (ok _ rfl) (by simp [imm, literals]) fun divisor => ?_
  refine composedNext (ok _ rfl) (by simp [imm, literals]) fun recip => ?_
  refine .bind (r := []) (composedScaleBy literals ok) fun scaled => ?_
  refine composedNext (ok _ rfl) rfl fun quotient => ?_
  refine composedNext (ok _ rfl) rfl fun signs => ?_
  refine composedNext (ok _ rfl) (by simp [imm, literals]) fun differ => ?_
  refine composedNext (ok _ rfl) (by simp [imm, literals]) fun negated => ?_
  refine composedNext (ok _ rfl) rfl fun withSign => ?_
  refine composedNext (ok _ rfl) (by simp [imm, literals]) fun extreme => ?_
  refine composedNext (ok _ rfl) (by simp [imm, literals]) fun byZero => ?_
  exact .define (ok _ rfl) rfl

theorem composedDiv : Composed ρ allowed l ρ (div a b r) (div (ρ a) (ρ b) r) [⟨r, .i32⟩] := by
  obtain ⟨g, h, left, right, rest⟩ := composedDivBegun (a := a) (b := b) (r := r) literals ok
  rw [left, right]
  exact composedNext (ok _ rfl) (by simp [imm, literals]) rest

theorem composedRefine : Composed ρ allowed l ρ (refine a v) (refine (ρ a) (ρ v)) [] := by
  refine composedNext (ok _ rfl) (by simp [imm, literals]) fun inRange => ?_
  refine composedNext (ok _ rfl) (by simp [imm, literals]) fun clamped => ?_
  refine composedNext (ok _ rfl) (by simp [imm, literals]) fun recip => ?_
  refine .bind (r := []) (composedScaleBy literals ok) fun quotient => ?_
  refine composedNext (ok _ rfl) rfl fun sum => ?_
  refine composedNext (ok _ rfl) (by simp [imm, literals]) fun halved => ?_
  refine composedNext (ok _ rfl) (by simp [imm, literals]) fun isZero => ?_
  exact .emit (ok _ rfl) (by simp [imm, literals])

theorem composedRefineTimes (n : Nat) :
    Composed ρ allowed l ρ (refineTimes a n v) (refineTimes (ρ a) n (ρ v)) [] := by
  induction n generalizing v with
  | zero => exact .pure _
  | succ n ih => exact .bind (r := []) (composedRefine literals ok) fun next => ih

theorem composedSqrtBegun : ∃ g h : Value → Emit Value,
    sqrt a r = (emit (.icmp .sgt) .i1 [a, imm 0] >>= g) ∧
    sqrt (ρ a) r = (emit (.icmp .sgt) .i1 [ρ a, imm 0] >>= h) ∧
    ∀ v, Composed ρ allowed l ρ (g v) (h (ρ v)) [⟨r, .i32⟩] := by
  refine ⟨_, _, rfl, rfl, fun positive => ?_⟩
  refine composedNext (ok _ rfl) (by simp [imm, literals]) fun input => ?_
  refine composedNext (ok _ rfl) rfl fun wide => ?_
  refine composedNext (ok _ rfl) (by simp [imm, literals]) fun scaled => ?_
  refine composedNext (ok _ rfl) (by simp [imm, literals]) fun first => ?_
  refine composedNext (ok _ rfl) (by simp [imm, literals]) fun tooSmall => ?_
  refine composedNext (ok _ rfl) (by simp [imm, literals]) fun initial => ?_
  refine .bind (r := []) (composedRefineTimes literals ok _) fun guess => ?_
  refine composedNext (ok _ rfl) (by simp [imm, literals]) fun shifted => ?_
  refine composedNext (ok _ rfl) rfl fun root => ?_
  exact .define (ok _ rfl) (by simp [imm, literals])

theorem composedSqrt : Composed ρ allowed l ρ (sqrt a r) (sqrt (ρ a) r) [⟨r, .i32⟩] := by
  obtain ⟨g, h, left, right, rest⟩ := composedSqrtBegun (a := a) (r := r) literals ok
  rw [left, right]
  exact composedNext (ok _ rfl) (by simp [imm, literals]) rest

end Dividing

theorem sameLiterals (n : Int64) : id (Value.int n) = .int n := rfl

theorem everyAllowed (op : Opcode) (_ : op.integral = true) : (fun _ => true) op = true := rfl

theorem divHead (e : Emission) : ((div a b r).written e).head? =
    some (computing (.icmp .eq) .i1 [b, imm 0] e.nextTemp e.loc) := by
  obtain ⟨g, h, left, -, rest⟩ := composedDivBegun (a := a) (b := b) (r := r)
    (l := .unknown) sameLiterals everyAllowed
  rw [left]
  exact writtenHead rest e

theorem sqrtHead (e : Emission) : ((sqrt a r).written e).head? =
    some (computing (.icmp .sgt) .i1 [a, imm 0] e.nextTemp e.loc) := by
  obtain ⟨g, h, left, -, rest⟩ := composedSqrtBegun (a := a) (r := r)
    (l := .unknown) sameLiterals everyAllowed
  rw [left]
  exact writtenHead rest e

section Total

variable (literals : ∀ n, ρ (.int n) = .int n)
  (ok : ∀ op, op.integral → op.divides = false → allowed op = true)

include literals ok

theorem composedAbs : Composed ρ allowed l ρ (abs a r) (abs (ρ a) r) [⟨r, .i32⟩] := by
  refine composedNext (ok _ rfl rfl) (by simp [imm, literals]) fun isNeg => ?_
  refine composedNext (ok _ rfl rfl) (by simp [imm, literals]) fun negated => ?_
  exact .define (ok _ rfl rfl) rfl

theorem composedMul : Composed ρ allowed l ρ (mul a b r) (mul (ρ a) (ρ b) r) [⟨r, .i32⟩] := by
  refine composedNext (ok _ rfl rfl) rfl fun wideA => ?_
  refine composedNext (ok _ rfl rfl) rfl fun wideB => ?_
  refine composedNext (ok _ rfl rfl) rfl fun product => ?_
  refine composedNext (ok _ rfl rfl) (by simp [imm, literals]) fun shifted => ?_
  exact .define (ok _ rfl rfl) rfl

theorem composedFloatOp (op : FloatOp) (total : op ≠ .div) (rational : op ≠ .sqrt) :
    Composed ρ allowed l ρ (ofFloatOp op a b r) (ofFloatOp op (ρ a) (ρ b) r) [⟨r, .i32⟩] := by
  cases op with
  | add | sub => exact .define (ok _ rfl rfl) rfl
  | neg => exact .define (ok _ rfl rfl) (by simp [imm, literals])
  | mul => exact composedMul literals ok
  | abs => exact composedAbs literals ok
  | min | max =>
    refine composedNext (ok _ rfl rfl) rfl fun less => ?_
    exact .define (ok _ rfl rfl) rfl
  | div => exact absurd rfl total
  | sqrt => exact absurd rfl rational

theorem composedOfInt (type : Ty) :
    Composed ρ allowed l ρ (ofInt a type r) (ofInt (ρ a) type r) [⟨r, .i32⟩] := by
  cases type with
  | i32 =>
    refine .bind (f := ρ) (r := []) (.pure _) fun narrow => ?_
    exact .define (ok _ rfl rfl) (by simp [imm, literals])
  | _ =>
    refine composedNext (ok _ rfl rfl) rfl fun narrow => ?_
    exact .define (ok _ rfl rfl) (by simp [imm, literals])

theorem composedToInt (type : Ty) :
    Composed ρ allowed l ρ (toInt a type r) (toInt (ρ a) type r) [⟨r, type⟩] := by
  cases type with
  | i32 => exact .define (ok _ rfl rfl) (by simp [imm, literals])
  | _ =>
    refine composedNext (ok _ rfl rfl) (by simp [imm, literals]) fun whole => ?_
    exact .define (ok _ rfl rfl) rfl

omit literals in
theorem composedCompare (c : FloatCompare) :
    Composed ρ allowed l ρ (compare c a b r) (compare c (ρ a) (ρ b) r) [⟨r, .i1⟩] :=
  .define (ok _ rfl rfl) rfl

end Total
end Lowering.Sequence
end FixedIL
