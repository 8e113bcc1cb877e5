import FixedIL.Lowering.Sequence
import FixedIL.Proofs.StraightLine
import FixedIL.Proofs.Words

/-!
What each kind of instruction in the fixed-point sequences makes of known operands.
-/
namespace FixedIL.Lowering.Sequence

open Emit

variable {m : Machine} {stops : TrapCause → Prop} {b : Frontier} {known : List Binding}
  {e : Emission} {Q : Value → Emission → (State → Prop) → Prop} {type : Ty}
  {u v c : Value} {t t' tc : Option Ty} {w w' : Word}

instance knowsImm {n : Int64} : Knows known (imm n) none (Word.ofInt64 n) := Knows.literal

section Yields

theorem yieldsInt [ku : Knows known u t w] [kv : Knows known v t' w'] {op : IntOp} {r : Word}
    (value : op.eval? type w w' = some r) :
    Yields m known (.int op) type [u, v] [w, w'] (.ok r) where
  computes := rfl
  whole := rfl
  knows := .cons ku (.cons kv .nil)
  made _ _ _ _ := by simp [FloatDomain.compute, computing, Instr.blank, value]

theorem yieldsNoInt [ku : Knows known u t w] [kv : Knows known v t' w'] {op : IntOp}
    (none : op.eval? type w w' = none) :
    Yields m known (.int op) type [u, v] [w, w'] (.error .divisionByZero) where
  computes := rfl
  whole := rfl
  knows := .cons ku (.cons kv .nil)
  made _ _ _ _ := by simp [FloatDomain.compute, computing, Instr.blank, none]

theorem yieldsCompare [ku : Knows known u t w] [kv : Knows known v t' w'] (op : IntCompare) :
    Yields m known (.icmp op) .i1 [u, v] [w, w']
      (.ok (Word.ofBool (op.eval (t.getD (t'.getD .i64)) w w'))) where
  computes := rfl
  whole := rfl
  knows := .cons ku (.cons kv .nil)
  made typeOf? _ _ typed := by
    simp only [FloatDomain.compute, computing, Instr.blank, comparedType, typed _ _ _ ku, typed _ _ _ kv]

theorem yieldsSelect [kc : Knows known c tc w] [ku : Knows known u t w'] {w'' : Word}
    [kv : Knows known v t' w''] :
    Yields m known .select type [c, u, v] [w, w', w''] (.ok (if w.isTrue then w' else w'')) where
  computes := rfl
  whole := rfl
  knows := .cons kc (.cons ku (.cons kv .nil))
  made _ _ _ _ := rfl

theorem yieldsSext [ku : Knows known u t w] :
    Yields m known .sext type [u] [w]
      (.ok (Word.normalize type (signExtendFrom (t.getD type) w))) where
  computes := rfl
  whole := rfl
  knows := .cons ku .nil
  made _ _ _ typed := by simp only [FloatDomain.compute, computing, Instr.blank, typed _ _ _ ku]

theorem yieldsZext [ku : Knows known u t w] :
    Yields m known .zext type [u] [w]
      (.ok (Word.normalize type (Word.unsigned (t.getD type) w))) where
  computes := rfl
  whole := rfl
  knows := .cons ku .nil
  made _ _ _ typed := by simp only [FloatDomain.compute, computing, Instr.blank, typed _ _ _ ku]

theorem yieldsTrunc [ku : Knows known u t w] :
    Yields m known .trunc type [u] [w] (.ok (Word.normalize type w)) where
  computes := rfl
  whole := rfl
  knows := .cons ku .nil
  made _ _ _ _ := rfl

end Yields

theorem makesCompare [Knows known u t w] [Knows known v t' w'] {op : IntCompare}
    (q : ∀ id e', Q (.temp id) e' (b.Scope m
      (⟨.temp id, some .i1, Word.ofBool (op.eval (t.getD (t'.getD .i64)) w w')⟩ :: known) e')) :
    Makes m stops (b.Scope m known e) (compareTo op u v) e Q :=
  makesEmit (yieldsCompare op) q

theorem makesInt [Knows known u t w] [Knows known v t' w'] {op : IntOp} {r : Word}
    (value : op.eval? type w w' = some r)
    (q : ∀ id e', Q (.temp id) e' (b.Scope m (⟨.temp id, some type, r⟩ :: known) e')) :
    Makes m stops (b.Scope m known e) (intOp op type u v) e Q :=
  makesEmit (yieldsInt value) q

theorem makesSelect {cond : Bool} [Knows known c tc (Word.ofBool cond)] [Knows known u t w]
    [Knows known v t' w']
    (q : ∀ id e', Q (.temp id) e'
      (b.Scope m (⟨.temp id, some type, if cond then w else w'⟩ :: known) e')) :
    Makes m stops (b.Scope m known e) (select type c u v) e Q := by
  refine makesEmit yieldsSelect ?_
  rw [Word.isTrueOfBool]
  exact q

theorem makesWiden [Knows known u t w] (number : t ≠ some .i1)
    (q : ∀ id e', Q (.temp id) e' (b.Scope m (⟨.temp id, some .i64, w⟩ :: known) e')) :
    Makes m stops (b.Scope m known e) (emit .sext .i64 [u]) e Q := by
  have word : signExtendFrom (t.getD .i64) w = w := by
    cases t with
    | none => rfl
    | some t => exact if_neg fun same => number (congrArg some same)
  refine makesEmit yieldsSext ?_
  rw [word]
  exact q

end FixedIL.Lowering.Sequence
