import FixedIL.Proofs.Writing

/-!
What sequences are made of: operations on integers, of integer types, with one result each. They
read all that the sequence is given, and besides it integer literals and temporaries. How many
they are depends on the operation alone.
-/
namespace FixedIL

structure IntegerCode (ok : Value → Prop) (j : Instr) : Prop where
  op : j.op.integral = true
  type : j.type.isInteger = true
  result : ∃ id, j.results = [⟨id, j.type⟩]
  operands : ∀ v ∈ j.operands, ok v
  alone : j.branchArgs = []

namespace Emit

/-- Behind what is there `x` adds `n` operations on integers that read the values `vs`, and its
value satisfies `ok`. -/
def Emits (ok : Value → Prop) (n : Nat) (vs : List Value) (x : Emit Value) : Prop :=
  ∀ e, ok (x.run e).1 ∧ ∃ code, (x.run e).2.code = e.code ++ code ∧ code.length = n ∧
    (∀ j ∈ code, IntegerCode ok j) ∧ ∀ v ∈ vs, ∃ j ∈ code, v ∈ j.operands

section Rules

variable {ok : Value → Prop} {n m : Nat} {vs : List Value} {x : Emit Value}
  {g : Value → Emit Value} {u v : Value} {op : Opcode} {type : Ty} {operands : List Value}

theorem emitsPure (fine : ok v) : Emits ok 0 [] (pure v) :=
  fun _ => ⟨fine, [], (List.append_nil _).symm, rfl, List.forall_mem_nil _, List.forall_mem_nil _⟩

theorem emitsBind (first : Emits ok n [] x) (rest : ∀ v, ok v → Emits ok m vs (g v)) :
    Emits ok (m + n) vs (x >>= g) := by
  intro e
  obtain ⟨fine, code, added, length, integer, -⟩ := first e
  obtain ⟨fine', code', added', length', integer', reads⟩ := rest _ fine (x.run e).2
  refine ⟨fine', code ++ code', ?_, ?_, fun j member => ?_, fun v member => ?_⟩
  · rw [StateT.run_bind]
    exact added'.trans (by rw [added, List.append_assoc])
  · rw [List.length_append, length, length', Nat.add_comm]
  · exact (List.mem_append.mp member).elim (integer j) (integer' j)
  · obtain ⟨j, among, operand⟩ := reads v member
    exact ⟨j, List.mem_append_right code among, operand⟩

theorem computingInteger {id : TempId} {loc : Loc} (integral : op.integral = true)
    (integer : type.isInteger = true) (fine : ∀ v ∈ operands, ok v) :
    IntegerCode ok (computing op type operands id loc) :=
  ⟨integral, integer, ⟨id, rfl⟩, fine, rfl⟩

variable (temps : ∀ id, ok (.temp id))

include temps

theorem emitsDefine {id : TempId} (integral : op.integral = true)
    (integer : type.isInteger = true) (fine : ∀ v ∈ operands, ok v) (reads : vs ⊆ operands) :
    Emits ok 1 vs (define op type operands id) := by
  intro e
  rw [defineRun]
  refine ⟨temps id, _, rfl, rfl, List.forall_mem_singleton.mpr ?_, fun v member => ?_⟩
  · exact computingInteger integral integer fine
  · exact ⟨_, List.mem_singleton_self _, reads member⟩

theorem emitsOne (integral : op.integral = true) (integer : type.isInteger = true)
    (fine : ∀ v ∈ operands, ok v) : Emits ok 1 [] (emit op type operands) := by
  intro e
  rw [emitRun]
  exact ⟨temps _, _, rfl, rfl,
    List.forall_mem_singleton.mpr (computingInteger integral integer fine), List.forall_mem_nil _⟩

theorem emitsNext (integral : op.integral = true) (integer : type.isInteger = true)
    (fine : ∀ v ∈ operands, ok v) (rest : ∀ v, ok v → Emits ok m vs (g v)) :
    Emits ok (m + 1) vs (emit op type operands >>= g) :=
  emitsBind (emitsOne temps integral integer fine) rest

theorem emitsRead (read : u ∈ operands) (integral : op.integral = true)
    (integer : type.isInteger = true) (fine : ∀ v ∈ operands, ok v)
    (rest : ∀ v, ok v → Emits ok m vs (g v)) :
    Emits ok (m + 1) (u :: vs) (emit op type operands >>= g) := by
  intro e
  obtain ⟨last, code, added, length, integers, reads⟩ :=
    rest _ (temps e.nextTemp) (emitted op type operands e)
  refine ⟨?_, computing op type operands e.nextTemp e.loc :: code, ?_, ?_, ?_, ?_⟩
  · rw [StateT.run_bind, emitRun]
    exact last
  · rw [StateT.run_bind, emitRun]
    exact added.trans (List.append_cons ..).symm
  · rw [List.length_cons, length]
  · exact List.forall_mem_cons.mpr ⟨computingInteger integral integer fine, integers⟩
  · refine List.forall_mem_cons.mpr ⟨⟨_, List.mem_cons_self, read⟩, fun v member => ?_⟩
    obtain ⟨j, among, operand⟩ := reads v member
    exact ⟨j, List.mem_cons_of_mem _ among, operand⟩

end Rules
end Emit

namespace Lowering.Sequence

open Emit

def between : FloatOp → Nat
  | .add | .sub | .neg => 0
  | .min | .max => 1
  | .abs => 2
  | .mul => 4
  | .div => 22
  | .sqrt => 9 + 10 * Fixed.Sqrt.steps

def betweenWidths (type : Ty) : Nat := if type = .i32 then 0 else 1

variable {ok : Value → Prop} {a b v : Value} {r : TempId} {type : Ty}
  (ints : ∀ n, ok (.int n)) (temps : ∀ id, ok (.temp id))

include ints temps

theorem absEmits (fine : ok a) : Emits ok 3 [a] (abs a r) := by
  refine emitsNext temps rfl rfl (by simp [imm, ints, fine]) fun isNeg first => ?_
  refine emitsNext temps rfl rfl (by simp [imm, ints, fine]) fun negated second => ?_
  exact emitsDefine temps rfl rfl (by simp [fine, first, second]) (by simp)

theorem mulEmits (left : ok a) (right : ok b) : Emits ok 5 [a, b] (mul a b r) := by
  refine emitsRead temps (by simp) rfl rfl (by simp [left]) fun wideA first => ?_
  refine emitsRead temps (by simp) rfl rfl (by simp [right]) fun wideB second => ?_
  refine emitsNext temps rfl rfl (by simp [first, second]) fun product fine => ?_
  refine emitsNext temps rfl rfl (by simp [imm, ints, fine]) fun shifted last => ?_
  exact emitsDefine temps rfl rfl (by simp [last]) (List.nil_subset _)

theorem scaleByEmits (left : ok a) (right : ok b) : Emits ok 3 [] (scaleBy a b) := by
  refine emitsNext temps rfl rfl (by simp [left, right]) fun product first => ?_
  refine emitsNext temps rfl rfl (by simp [imm, ints, first]) fun doubled second => ?_
  exact emitsOne temps rfl rfl (by simp [imm, ints, second])

theorem magnitudeEmits (left : ok a) (right : ok b) : Emits ok 3 [] (magnitude a b) := by
  refine emitsNext temps rfl rfl (by simp [imm, ints, left]) fun negated first => ?_
  refine emitsNext temps rfl rfl (by simp [left, right, first]) fun narrow second => ?_
  exact emitsOne temps rfl rfl (by simp [second])

theorem divEmits (left : ok a) (right : ok b) : Emits ok 23 [a, b] (div a b r) := by
  refine emitsNext temps rfl rfl (by simp [imm, ints, right]) fun bIsZero zeroB => ?_
  refine emitsNext temps rfl rfl (by simp [imm, ints, left]) fun aIsZero zeroA => ?_
  refine emitsRead temps (by simp) rfl rfl (by simp [imm, ints, left]) fun aIsNeg negA => ?_
  refine emitsRead temps (by simp) rfl rfl (by simp [imm, ints, right]) fun bIsNeg negB => ?_
  refine emitsBind (magnitudeEmits ints temps left negA) fun absA sizeA => ?_
  refine emitsBind (magnitudeEmits ints temps right negB) fun absB sizeB => ?_
  refine emitsNext temps rfl rfl (by simp [imm, ints, zeroB, sizeB]) fun divisor nonzero => ?_
  refine emitsNext temps rfl rfl (by simp [imm, ints, nonzero]) fun recip inverse => ?_
  refine emitsBind (scaleByEmits ints temps sizeA inverse) fun scaled wide => ?_
  refine emitsNext temps rfl rfl (by simp [wide]) fun quotient narrow => ?_
  refine emitsNext temps rfl rfl (by simp [left, right]) fun signs either => ?_
  refine emitsNext temps rfl rfl (by simp [imm, ints, either]) fun differ unlike => ?_
  refine emitsNext temps rfl rfl (by simp [imm, ints, narrow]) fun negated minus => ?_
  refine emitsNext temps rfl rfl (by simp [unlike, minus, narrow]) fun withSign signed => ?_
  refine emitsNext temps rfl rfl (by simp [imm, ints, negA]) fun extreme bound => ?_
  refine emitsNext temps rfl rfl (by simp [imm, ints, zeroA, bound]) fun byZero fixed => ?_
  exact emitsDefine temps rfl rfl (by simp [zeroB, fixed, signed]) (List.nil_subset _)

theorem refineEmits (left : ok a) (right : ok b) : Emits ok 10 [] (refine a b) := by
  refine emitsNext temps rfl rfl (by simp [imm, ints, right]) fun inRange small => ?_
  refine emitsNext temps rfl rfl (by simp [imm, ints, right, small]) fun clamped low => ?_
  refine emitsNext temps rfl rfl (by simp [imm, ints, low]) fun recip inverse => ?_
  refine emitsBind (scaleByEmits ints temps left inverse) fun quotient scaled => ?_
  refine emitsNext temps rfl rfl (by simp [right, scaled]) fun sum both => ?_
  refine emitsNext temps rfl rfl (by simp [imm, ints, both]) fun halved half => ?_
  refine emitsNext temps rfl rfl (by simp [imm, ints, half]) fun isZero zero => ?_
  exact emitsOne temps rfl rfl (by simp [imm, ints, zero, half])

theorem refineTimesEmits (left : ok a) (right : ok b) (steps : Nat) :
    Emits ok (10 * steps) [] (refineTimes a steps b) := by
  induction steps generalizing b with
  | zero => exact emitsPure right
  | succ steps ih =>
    exact emitsBind (refineEmits ints temps left right) fun next fine => ih fine

theorem sqrtEmits (fine : ok a) : Emits ok 70 [a] (sqrt a r) := by
  refine emitsRead temps (by simp) rfl rfl (by simp [imm, ints, fine]) fun positive above => ?_
  refine emitsNext temps rfl rfl (by simp [imm, ints, fine, above]) fun input first => ?_
  refine emitsNext temps rfl rfl (by simp [first]) fun wide second => ?_
  refine emitsNext temps rfl rfl (by simp [imm, ints, second]) fun scaled whole => ?_
  refine emitsNext temps rfl rfl (by simp [imm, ints, whole]) fun start third => ?_
  refine emitsNext temps rfl rfl (by simp [imm, ints, third]) fun tooSmall low => ?_
  refine emitsNext temps rfl rfl (by simp [imm, ints, low, third]) fun initial begun => ?_
  refine emitsBind (n := 60) (refineTimesEmits ints temps whole begun _) fun guess close => ?_
  refine emitsNext temps rfl rfl (by simp [imm, ints, close]) fun shifted fourth => ?_
  refine emitsNext temps rfl rfl (by simp [fourth]) fun root last => ?_
  exact emitsDefine temps rfl rfl (by simp [imm, ints, above, last]) (List.nil_subset _)

theorem floatOpEmits (op : FloatOp) (left : ok a) (right : ok b) :
    Emits ok (between op + 1) ([a, b].take op.operands) (ofFloatOp op a b r) := by
  cases op with
  | add | sub => exact emitsDefine temps rfl rfl (by simp [left, right]) (List.Subset.refl _)
  | neg => exact emitsDefine temps rfl rfl (by simp [imm, ints, left]) (by simp [FloatOp.operands])
  | min | max =>
    refine emitsNext temps rfl rfl (by simp [left, right]) fun less fine => ?_
    exact emitsDefine temps rfl rfl (by simp [left, right, fine]) (by simp [FloatOp.operands])
  | abs => exact absEmits ints temps left
  | mul => exact mulEmits ints temps left right
  | div => exact divEmits ints temps left right
  | sqrt => exact sqrtEmits ints temps left

theorem ofIntEmits (fine : ok v) : Emits ok (betweenWidths type + 1) [v] (ofInt v type r) := by
  cases type with
  | i32 =>
    change Emits ok 1 [v] (define (.int .shl) .i32 [v, imm fraction] r)
    exact emitsDefine temps rfl rfl (by simp [imm, ints, fine]) (by simp)
  | _ =>
    refine emitsRead temps (by simp) rfl rfl (by simp [fine]) fun narrow first => ?_
    exact emitsDefine temps rfl rfl (by simp [imm, ints, first]) (List.nil_subset _)

theorem toIntEmits (integer : type.isInteger = true) (fine : ok v) :
    Emits ok (betweenWidths type + 1) [v] (toInt v type r) := by
  cases type with
  | i32 => exact emitsDefine temps rfl rfl (by simp [imm, ints, fine]) (by simp)
  | _ =>
    refine emitsRead temps (by simp) rfl rfl (by simp [imm, ints, fine]) fun whole first => ?_
    exact emitsDefine temps rfl integer (by simp [first]) (List.nil_subset _)

omit ints in
theorem compareEmits (c : FloatCompare) (left : ok a) (right : ok b) :
    Emits ok 1 [a, b] (compare c a b r) :=
  emitsDefine temps rfl rfl (by simp [left, right]) (List.Subset.refl _)

end Lowering.Sequence
end FixedIL
