import FixedIL.Machine.FloatDomain
import FixedIL.Machine.Trap

/-!
Instructions that only make one word out of others. The types of temporaries matter to
those that change or compare widths; a literal takes the type that the place suggests.
-/
namespace FixedIL

def comparedType (typeOf? : Value → Option Ty) (a b : Value) : Ty :=
  (typeOf? a).getD ((typeOf? b).getD .i64)

def signExtendFrom (t : Ty) (w : Word) : Word :=
  if t = .i1 then (if w.isTrue then Word.ofInt64 (-1) else 0) else w

namespace FloatDomain

def compute (d : FloatDomain) (typeOf? : Value → Option Ty) (i : Instr) (words : List Word) :
    Except TrapCause Word :=
  match i.op, i.operands, words with
  | .iconst, _, a :: _ => .ok (Word.normalize i.type a)
  | .fconst, v :: _, _ => .ok (d.constant i.type v)
  | .int op, _, a :: b :: _ =>
    match op.eval? i.type a b with
    | some w => .ok w
    | none => .error .divisionByZero
  | .icmp c, v :: v' :: _, a :: b :: _ =>
    .ok (Word.ofBool (c.eval (comparedType typeOf? v v') a b))
  | .sext, v :: _, a :: _ =>
    .ok (Word.normalize i.type (signExtendFrom ((typeOf? v).getD i.type) a))
  | .zext, v :: _, a :: _ =>
    .ok (Word.normalize i.type (Word.unsigned ((typeOf? v).getD i.type) a))
  | .zext1, _, a :: _ => .ok (Word.normalize i.type (Word.unsigned .i1 a))
  | .trunc, _, a :: _ => .ok (Word.normalize i.type a)
  | .trunc1, _, a :: _ => .ok (Word.unsigned .i1 a)
  | .select, _, c :: a :: b :: _ => .ok (if c.isTrue then a else b)
  | .float op, _, a :: rest =>
    match op.operands, rest with
    | 1, _ => .ok (d.arith op i.type a a)
    | _, b :: _ => .ok (d.arith op i.type a b)
    | _, [] => .error .malformed
  | .frem, _, a :: b :: _ => .ok (d.remainder i.type a b)
  | .fcmp c, _, a :: b :: _ => .ok (Word.ofBool (d.compare c a b))
  | .sitofp, v :: _, a :: _ =>
    .ok (d.ofInt i.type (signExtendFrom ((typeOf? v).getD .i64) a).toInt64)
  | .fptosi, _, a :: _ => .ok (d.toInt i.type a)
  | .fpext, _, a :: _ | .fptrunc, _, a :: _ => .ok (d.cast i.type a)
  | .tofixed, _, a :: _ => .ok (d.toFixed a)
  | .fromfixed, _, a :: _ => .ok (d.ofFixed i.type a)
  | _, _, _ => .error .malformed

end FloatDomain
end FixedIL
