import FixedIL.Proofs.LoweredFunction
import FixedIL.Proofs.StraightLine
import FixedIL.Proofs.Words

/-!
What an instruction makes of a literal, compared with a temporary of 32 bits that holds the
same number. Only two operations look at the types of their operands: widening without sign, and
comparison without sign. These see all 64 bits of a literal.
-/
namespace FixedIL

inductive Reads (f : Frame) : Value → Value → Prop where
  | same (v : Value) : Reads f v v
  | held {n : Int64} {t : TempId} (typed : Frame.tempType f.fn t = .i32)
      (holds : f.regs[t.toNat]? = some (Word.ofInt64 n)) : Reads f (.int n) (.temp t)

inductive ReadsAll (f : Frame) : List Value → List Value → Prop where
  | nil : ReadsAll f [] []
  | cons {v v' : Value} {vs vs' : List Value} (head : Reads f v v') (tail : ReadsAll f vs vs') :
      ReadsAll f (v :: vs) (v' :: vs')

inductive ReadsLists (f : Frame) : List (List Value) → List (List Value) → Prop where
  | nil : ReadsLists f [] []
  | cons {vs vs' : List Value} {lists lists' : List (List Value)} (head : ReadsAll f vs vs')
      (tail : ReadsLists f lists lists') : ReadsLists f (vs :: lists) (vs' :: lists')

inductive Variant (f : Frame) (j : Instr) : Instr → Prop where
  | reading {vs : List Value} {lists : List (List Value)} (operands : ReadsAll f j.operands vs)
      (branches : ReadsLists f j.branchArgs lists) :
      Variant f j { j with operands := vs, branchArgs := lists }

theorem Variant.same {f : Frame} {j j' : Instr} (variant : Variant f j j') : j'.op = j.op ∧
    j'.type = j.type ∧ j'.results = j.results ∧ ReadsAll f j.operands j'.operands := by
  cases variant with
  | reading operands branches => exact ⟨rfl, rfl, rfl, operands⟩

def RunError.unplaced : RunError → RunError
  | .trap f _ cause => .trap f none cause
  | e => e

def Agree {α : Type} (x y : Except RunError α) : Prop :=
  x.mapError RunError.unplaced = y.mapError RunError.unplaced

section Agree

variable {α β : Type} {f : Frame} {j j' : Instr} {cause : TrapCause}

theorem agreeRefl (x : Except RunError α) : Agree x x := rfl

theorem agreeTrap : Agree (f.trap j cause : Except RunError α) (f.trap j' cause) := rfl

theorem agreeBind {x y : Except RunError α} {g h : α → Except RunError β} (first : Agree x y)
    (second : ∀ a, Agree (g a) (h a)) : Agree (x >>= g) (y >>= h) := by
  cases x with
  | error e =>
    cases y with
    | error e' =>
      have same : e.unplaced = e'.unplaced := Except.error.inj first
      exact congrArg Except.error same
    | ok b => cases first
  | ok a =>
    cases y with
    | error e' => cases first
    | ok b =>
      cases first
      exact second a

theorem agreeOrTrap {o : Option α} : Agree (f.orTrap j cause o) (f.orTrap j' cause o) := by
  cases o <;> rfl

theorem agreeRead {o : Option α} {g h : α → Except RunError β} (next : ∀ a, Agree (g a) (h a)) :
    Agree (f.orTrap j cause o >>= g) (f.orTrap j' cause o >>= h) :=
  agreeBind agreeOrTrap next

theorem agreeReadSame {o : Option α} {g h : α → Except RunError β}
    (next : ∀ a, o = some a → Agree (g a) (h a)) :
    Agree (f.orTrap j cause o >>= g) (f.orTrap j' cause o >>= h) := by
  cases o with
  | none => exact agreeTrap
  | some a => exact next a rfl

theorem agreeReadBoth {o o' : Option α} {g h : α → Except RunError β} (both : o.isSome = o'.isSome)
    (next : ∀ a b, o = some a → o' = some b → Agree (g a) (h b)) :
    Agree (f.orTrap j cause o >>= g) (f.orTrap j' cause o' >>= h) := by
  cases o with
  | none =>
    cases o' with
    | none => exact agreeTrap
    | some b => cases both
  | some a =>
    cases o' with
    | none => cases both
    | some b => exact next a b rfl rfl

theorem agreeIte {c : Prop} [Decidable c] {x y x' y' : Except RunError α} (yes : Agree x x')
    (no : Agree y y') : Agree (if c then x else y) (if c then x' else y') := by
  split
  · exact yes
  · exact no

theorem agreeOk {a b : α} : Agree (.ok a) (.ok b) ↔ a = b := by
  constructor
  · intro same
    cases same
    rfl
  · rintro rfl
    rfl

end Agree

namespace Reads

variable {f : Frame} {d : FloatDomain} {v v' : Value} {vs vs' : List Value}
  {lists lists' : List (List Value)}

theorem value (reads : Reads f v v') : f.value? d v' = f.value? d v := by
  cases reads with
  | same => rfl
  | held typed holds => exact holds

theorem take (reads : ReadsAll f vs vs') (n : Nat) : ReadsAll f (vs.take n) (vs'.take n) := by
  induction reads generalizing n with
  | nil =>
    rw [List.take_nil]
    exact .nil
  | cons head tail ih =>
    cases n with
    | zero => exact .nil
    | succ n => exact .cons head (ih n)

theorem values (reads : ReadsAll f vs vs') : f.values? d vs' = f.values? d vs := by
  induction reads with
  | nil => rfl
  | cons head tail ih =>
    simp only [Frame.values?] at ih
    simp only [Frame.values?, List.mapM_cons, head.value, ih]

theorem head (reads : ReadsAll f vs vs') :
    vs'.head?.bind (f.value? d) = vs.head?.bind (f.value? d) := by
  cases reads with
  | nil => rfl
  | cons head tail => exact head.value

theorem arms (reads : ReadsLists f lists lists') (k : Nat) :
    lists[k]?.isSome = lists'[k]?.isSome ∧
      ∀ vs vs', lists[k]? = some vs → lists'[k]? = some vs' → ReadsAll f vs vs' := by
  induction reads generalizing k with
  | nil => exact ⟨rfl, fun _ _ none => by cases none⟩
  | cons head tail ih =>
    cases k with
    | zero =>
      refine ⟨rfl, fun _ _ one two => ?_⟩
      cases one
      cases two
      exact head
    | succ k => exact ih k

theorem length (reads : ReadsAll f vs vs') : vs'.length = vs.length := by
  induction reads with
  | nil => rfl
  | cons head tail ih => simp [ih]

end Reads

/-- Where the literal and the temporary make a difference: the literal is widened by its high
half too, or takes part in a comparison of another width. -/
inductive Clash (d : FloatDomain) (f : Frame) (j j' : Instr) : Prop where
  | widened {n : Int64} {t : TempId} {vs vs' : List Value} (op : j.op = .zext)
      (literal : j.operands = .int n :: vs) (temp : j'.operands = .temp t :: vs')
      (wide : Word.isNarrow j.type = false) (outside : ¬ (0 ≤ n ∧ n < 4294967296)) :
      Clash d f j j'
  | compared {c : IntCompare} {u v u' v' : Value} {vs vs' : List Value} {a b : Word}
      (op : j.op = .icmp c) (operands : j.operands = u :: v :: vs)
      (operands' : j'.operands = u' :: v' :: vs') (left : f.value? d u = some a)
      (right : f.value? d v = some b) (untyped : f.typeOf? u = none)
      (narrow : comparedType f.typeOf? u' v' = .i32)
      (differs : c.eval ((f.typeOf? v).getD .i64) a b ≠ c.eval .i32 a b) : Clash d f j j'

def Defines (f : Frame) (j : Instr) : Prop :=
  ∃ r rs, j.results = r :: rs ∧ r.id.toNat < f.regs.size

theorem Frame.valuesOne {f : Frame} {d : FloatDomain} {v : Value} {vs : List Value}
    {words : List Word} (read : f.values? d ((v :: vs).take 1) = some words) :
    ∃ w, f.value? d v = some w ∧ words = [w] := by
  cases value : f.value? d v with
  | none => simp [values?, value] at read
  | some w => exact ⟨w, rfl, by simpa [values?, value] using read.symm⟩

theorem Frame.valuesTwo {f : Frame} {d : FloatDomain} {u v : Value} {vs : List Value}
    {words : List Word} (read : f.values? d ((u :: v :: vs).take 2) = some words) :
    ∃ a b, f.value? d u = some a ∧ f.value? d v = some b ∧ words = [a, b] := by
  cases left : f.value? d u with
  | none => simp [values?, left] at read
  | some a =>
    cases right : f.value? d v with
    | none => simp [values?, left, right] at read
    | some b => exact ⟨a, b, rfl, rfl, by simpa [values?, left, right] using read.symm⟩

section Compute

variable {d : FloatDomain} {f : Frame} {j j' : Instr} {u v u' v' : Value} {vs : List Value}
  {words ws : List Word} {a b w : Word} {typeOf? : Value → Option Ty}

theorem comparedAlike (left : Reads f u u') (right : Reads f v v') :
    comparedType f.typeOf? u' v' = comparedType f.typeOf? u v ∨
      (f.typeOf? u = none ∧ comparedType f.typeOf? u' v' = .i32) := by
  cases left with
  | held typed holds =>
    exact .inr ⟨rfl, typed⟩
  | same =>
    cases right with
    | same => exact .inl rfl
    | held typed holds =>
      cases first : f.typeOf? u with
      | none => exact .inr ⟨rfl, by rw [comparedType, first, Frame.typeOf?, typed]; rfl⟩
      | some t => exact .inl (by simp [comparedType, first])

theorem signExtended (t : Ty) (w : Word) :
    Word.normalize t (signExtendFrom t w) = Word.normalize t w := by
  cases t with
  | i1 =>
    change (if w.isTrue then Word.ofInt64 (-1) else 0) &&& 1 = w &&& 1
    rcases Word.lowBit w with zero | one
    · rw [Word.isTrue, zero]
      rfl
    · rw [Word.isTrue, one]
      rfl
  | _ => rfl

theorem computeSext (op : j.op = .sext) (operands : j.operands = v :: vs) :
    d.compute typeOf? j (w :: ws) =
      .ok (Word.normalize j.type (signExtendFrom ((typeOf? v).getD j.type) w)) := by
  simp only [FloatDomain.compute, op, operands]

theorem computeZext (op : j.op = .zext) (operands : j.operands = v :: vs) :
    d.compute typeOf? j (w :: ws) =
      .ok (Word.normalize j.type (Word.unsigned ((typeOf? v).getD j.type) w)) := by
  simp only [FloatDomain.compute, op, operands]

theorem computeCompare {c : IntCompare} (op : j.op = .icmp c)
    (operands : j.operands = u :: v :: vs) : d.compute typeOf? j (a :: b :: ws) =
      .ok (Word.ofBool (c.eval (comparedType typeOf? u v) a b)) := by
  simp only [FloatDomain.compute, op, operands]

def Differ (d : FloatDomain) (f : Frame) (j j' : Instr) (words : List Word) : Prop :=
  ∃ w w', d.compute f.typeOf? j words = .ok w ∧ d.compute f.typeOf? j' words = .ok w' ∧ w ≠ w'

theorem sextAlike (variant : Variant f j j') (op : j.op = .sext)
    (read : f.values? d (j.operands.take 1) = some words) :
    d.compute f.typeOf? j words = d.compute f.typeOf? j' words := by
  obtain ⟨op', type, -, reads⟩ := variant.same
  rw [op] at op'
  generalize operands : j.operands = us at reads read
  generalize operands' : j'.operands = us' at reads
  cases reads with
  | nil =>
    cases read
    simp only [FloatDomain.compute, op, op', operands, operands']
  | cons head tail =>
    obtain ⟨w, value, rfl⟩ := Frame.valuesOne read
    rw [computeSext op operands, computeSext op' operands', type]
    cases head with
    | same => rfl
    | held typed holds =>
      simp only [Frame.typeOf?, typed, Option.getD_none, Option.getD_some]
      exact congrArg Except.ok (signExtended j.type w)

theorem zextAlike (variant : Variant f j j') (op : j.op = .zext)
    (read : f.values? d (j.operands.take 1) = some words) :
    d.compute f.typeOf? j words = d.compute f.typeOf? j' words ∨
      Differ d f j j' words ∧ Clash d f j j' := by
  obtain ⟨op', type, -, reads⟩ := variant.same
  rw [op] at op'
  generalize operands : j.operands = us at reads read
  generalize operands' : j'.operands = us' at reads
  cases reads with
  | nil =>
    cases read
    exact .inl (by simp only [FloatDomain.compute, op, op', operands, operands'])
  | cons head tail =>
    obtain ⟨w, value, rfl⟩ := Frame.valuesOne read
    have whole : d.compute f.typeOf? j [w] = _ := computeZext op operands
    have half : d.compute f.typeOf? j' [w] = _ := computeZext op' operands'
    cases head with
    | same => exact .inl (by rw [whole, half, type])
    | @held n t typed holds =>
      cases value
      simp only [Frame.typeOf?, typed, type, Option.getD_none, Option.getD_some] at whole half
      cases narrow : Word.isNarrow j.type with
      | true => exact .inl (by rw [whole, half, Word.narrowUnsigned narrow])
      | false =>
        obtain ⟨keeps, cuts⟩ := Word.wideUnsigned narrow (Word.ofInt64 n)
        rw [keeps] at whole
        rw [cuts] at half
        by_cases same : Word.unsigned .i32 (Word.ofInt64 n) = Word.ofInt64 n
        · exact .inl (by rw [whole, half, same])
        · refine .inr ⟨⟨_, _, whole, half, Ne.symm same⟩, .widened op operands operands' narrow ?_⟩
          exact fun inside => same ((Word.unsignedOfInt64 n).mpr inside)

theorem compareAlike {c : IntCompare} (variant : Variant f j j') (op : j.op = .icmp c)
    (read : f.values? d (j.operands.take 2) = some words) :
    d.compute f.typeOf? j words = d.compute f.typeOf? j' words ∨
      Differ d f j j' words ∧ Clash d f j j' := by
  obtain ⟨op', type, -, reads⟩ := variant.same
  rw [op] at op'
  generalize operands : j.operands = us at reads read
  generalize operands' : j'.operands = us' at reads
  cases reads with
  | nil =>
    cases read
    exact .inl (by simp only [FloatDomain.compute, op, op', operands, operands'])
  | @cons u u' us us' left tail =>
    cases tail with
    | nil => exact .inl (by simp only [FloatDomain.compute, op, op', operands, operands'])
    | @cons v v' us us' right tail =>
      obtain ⟨a, b, first, second, rfl⟩ := Frame.valuesTwo read
      have one : d.compute f.typeOf? j [a, b] = _ := computeCompare op operands
      have two : d.compute f.typeOf? j' [a, b] = _ := computeCompare op' operands'
      rcases comparedAlike left right with same | ⟨untyped, narrow⟩
      · exact .inl (by rw [one, two, same])
      · have type : comparedType f.typeOf? u v = (f.typeOf? v).getD .i64 := by
          rw [comparedType, untyped]
          rfl
        rw [type] at one
        rw [narrow] at two
        by_cases same : c.eval ((f.typeOf? v).getD .i64) a b = c.eval .i32 a b
        · exact .inl (by rw [one, two, same])
        · refine .inr ⟨⟨_, _, one, two, fun equal => same ?_⟩,
            .compared op operands operands' first second untyped narrow same⟩
          exact Word.ofBoolInjective equal

theorem computeAlike (variant : Variant f j j') (free : j.op.floatFree = true)
    (read : f.values? d (j.operands.take j.op.minOperands) = some words) :
    d.compute f.typeOf? j words = d.compute f.typeOf? j' words ∨
      Differ d f j j' words ∧ Clash d f j j' := by
  cases op : j.op with
  | icmp c =>
    rw [op] at read
    exact compareAlike variant op read
  | zext =>
    rw [op] at read
    exact zextAlike variant op read
  | sext =>
    rw [op] at read
    exact .inl (sextAlike variant op read)
  | iconst | int | trunc | zext1 | trunc1 | select | stackaddr | load | store | call | br | cbr
  | ret =>
    obtain ⟨op', type, -, -⟩ := variant.same
    unfold FloatDomain.compute
    rw [op', op, type]
    exact .inl (by rcases words with _ | ⟨a, _ | ⟨b, _ | ⟨c, rest⟩⟩⟩ <;> rfl)
  | _ =>
    rw [op] at free
    cases free

theorem clashDiffers (clash : Clash d f j j') (variant : Variant f j j') :
    j.op.computes = true ∧ ∃ words,
      f.values? d (j.operands.take j.op.minOperands) = some words ∧ Differ d f j j' words := by
  obtain ⟨op', type, -, reads⟩ := variant.same
  cases clash with
  | @widened n t vs vs' op literal temp wide outside =>
    rw [op] at op'
    rw [literal, temp] at reads
    cases reads with
    | cons head tail =>
      cases head with
      | held typed holds =>
        refine ⟨by rw [op]; rfl, [Word.ofInt64 n], by rw [op, literal]; rfl, ?_⟩
        have whole : d.compute f.typeOf? j [Word.ofInt64 n] = _ := computeZext op literal
        have half : d.compute f.typeOf? j' [Word.ofInt64 n] = _ := computeZext op' temp
        obtain ⟨keeps, cuts⟩ := Word.wideUnsigned wide (Word.ofInt64 n)
        simp only [Frame.typeOf?, typed, type, Option.getD_none, Option.getD_some] at whole half
        rw [keeps] at whole
        rw [cuts] at half
        exact ⟨_, _, whole, half, fun same => outside ((Word.unsignedOfInt64 n).mp same.symm)⟩
  | @compared c u v u' v' vs vs' a b op operands operands' left right untyped narrow differs =>
    rw [op] at op'
    have one : d.compute f.typeOf? j [a, b] = _ := computeCompare op operands
    have two : d.compute f.typeOf? j' [a, b] = _ := computeCompare op' operands'
    rw [comparedType, untyped] at one
    rw [narrow] at two
    refine ⟨by rw [op]; rfl, [a, b], ?_, _, _, one, two, fun same => differs ?_⟩
    · rw [op, operands]
      simp [Opcode.minOperands, Frame.values?, left, right]
    · exact Word.ofBoolInjective same

end Compute

namespace Machine

variable {m : Machine} {s : State} {j : Instr} {after : List Instr} {operands : List Value}
  {lists : List (List Value)}

theorem jumpAgrees {f : Frame} {d : FloatDomain} {k : Nat}
    (branches : ReadsLists f j.branchArgs lists) :
    Agree (f.jump d j k) (f.jump d { j with operands := operands, branchArgs := lists } k) := by
  obtain ⟨both, arms⟩ := Reads.arms branches k
  unfold Frame.jump
  refine agreeRead fun label => agreeReadBoth both fun args args' one two => ?_
  have reads := arms args args' one two
  refine agreeRead fun target => ?_
  rw [Reads.values reads, Reads.length reads]
  exact agreeIte agreeTrap (agreeRead fun words => agreeOrTrap)

theorem callAgrees (reads : ReadsAll s.frame j.operands operands) :
    Agree (m.call s j after) (m.call s { j with operands := operands, branchArgs := lists } after) := by
  unfold call
  simp only [Reads.values reads]
  refine agreeRead fun args => ?_
  split
  · exact agreeRefl _
  · split
    · exact agreeTrap
    · refine agreeBind ?_ fun returned => agreeBind ?_ fun f => agreeRefl _
      · unfold callExtern
        split
        · exact agreeRefl _
        · simp only
          split
          · exact agreeRefl _
          · exact agreeRead fun address => agreeRead fun memory => agreeRefl _
      · exact agreeIte agreeTrap agreeOrTrap

theorem retAgrees (reads : ReadsAll s.frame j.operands operands) :
    Agree (m.ret s j) (m.ret s { j with operands := operands, branchArgs := lists }) := by
  unfold ret
  simp only [Reads.values reads]
  refine agreeRead fun results => ?_
  split
  · exact agreeRefl _
  · split
    · exact agreeTrap
    · exact agreeRefl _

theorem accessAgrees {j' : Instr} {words : List Word} (op : j'.op = j.op) (type : j'.type = j.type)
    (computed : m.domain.compute s.frame.typeOf? j words =
      m.domain.compute s.frame.typeOf? j' words) :
    Agree (m.access s j words) (m.access s j' words) := by
  unfold access
  rw [op]
  split
  · exact agreeBind (agreeIte (agreeRefl _) agreeTrap) fun address => agreeRefl _
  · refine agreeBind (agreeIte agreeTrap (agreeRefl _)) fun address => ?_
    refine agreeBind ?_ fun w => agreeRefl _
    unfold loadFrom
    rw [type]
    exact agreeIte (agreeRefl _) (agreeRead fun bytes => agreeRefl _)
  · refine agreeBind (agreeIte agreeTrap (agreeRefl _)) fun address => ?_
    refine agreeBind ?_ fun memory => agreeRefl _
    unfold storeTo
    rw [type]
    exact agreeIte (agreeRefl _) agreeOrTrap
  · rw [← computed]
    split
    · exact agreeRefl _
    · exact agreeTrap

theorem defineAgrees {f : Frame} {j' : Instr} {w : Word} (results : j'.results = j.results) :
    Agree (f.define j w) (f.define j' w) := by
  unfold Frame.define
  rw [results]
  split
  · exact agreeTrap
  · exact agreeOrTrap

theorem defineFails {f : Frame} {w : Word} (undefined : ¬ Defines f j) :
    f.define j w = f.trap j .malformed := by
  unfold Frame.define
  cases results : j.results with
  | nil => rfl
  | cons t rest =>
    have outside : ¬ t.id.toNat < f.regs.size := fun room => undefined ⟨t, rest, results, room⟩
    simp only [Frame.write?, outside, dif_neg, not_false_eq_true]
    rfl

theorem plainAgrees {j' : Instr} (variant : Variant s.frame j j')
    (computed : ∀ words, s.frame.values? m.domain (j.operands.take j.op.minOperands) = some words →
      m.domain.compute s.frame.typeOf? j words = m.domain.compute s.frame.typeOf? j' words ∨
      j.op.computes = true ∧ Differ m.domain s.frame j j' words ∧ ¬ Defines s.frame j) :
    Agree (m.plain s j after) (m.plain s j' after) := by
  obtain ⟨op, type, results, reads⟩ := variant.same
  unfold plain
  simp only [op, Reads.values (Reads.take reads _)]
  refine agreeReadSame fun words read => ?_
  rcases computed words read with same | ⟨computes, ⟨w, w', one, two, -⟩, undefined⟩
  · refine agreeBind (accessAgrees op type same) fun ⟨w?, memory⟩ => ?_
    cases w? with
    | none => exact agreeRefl _
    | some w => exact agreeBind (defineAgrees results) fun f => agreeRefl _
  · have undefined' : ¬ Defines s.frame j' := by rwa [Defines, results]
    rw [accessComputes computes, accessComputes (op ▸ computes), one, two]
    change Agree (s.frame.define j w >>= _) (s.frame.define j' w' >>= _)
    rw [defineFails undefined, defineFails undefined']
    exact agreeTrap

theorem literalReads {j' : Instr} (variant : Variant s.frame j j') (free : j.op.floatFree = true) :
    Agree (m.step s j after) (m.step s j' after) ↔
      ¬ (Defines s.frame j ∧ Clash m.domain s.frame j j') := by
  obtain ⟨op', type, results, reads⟩ := variant.same
  constructor
  · rintro agree ⟨⟨r, rs, isResult, room⟩, clash⟩
    obtain ⟨computes, words, read, w, w', one, two, differ⟩ := clashDiffers clash variant
    have read' : s.frame.values? m.domain (j'.operands.take j'.op.minOperands) = some words := by
      rw [op', Reads.values (Reads.take reads _), read]
    rw [stepComputes computes read one isResult room,
      stepComputes (op' ▸ computes) read' two (results.trans isResult) room, agreeOk] at agree
    have same : (s.frame.put r.id w).regs = (s.frame.put r.id w').regs :=
      congrArg (fun p => match p with | Progress.running s => s.frame.regs | _ => #[]) agree
    have held := Frame.putSame room w
    rw [same, Frame.putSame room w'] at held
    exact differ (Option.some.inj held).symm
  · intro clear
    have computed (words : List Word)
        (read : s.frame.values? m.domain (j.operands.take j.op.minOperands) = some words) :
        m.domain.compute s.frame.typeOf? j words = m.domain.compute s.frame.typeOf? j' words ∨
        j.op.computes = true ∧ Differ m.domain s.frame j j' words ∧ ¬ Defines s.frame j := by
      refine (computeAlike variant free read).imp_right fun ⟨differ, clash⟩ => ?_
      exact ⟨(clashDiffers clash variant).1, differ, fun defines => clear ⟨defines, clash⟩⟩
    cases variant with
    | reading operands branches =>
      unfold step
      simp only [Reads.head operands]
      split
      · exact callAgrees operands
      · exact retAgrees operands
      · exact agreeBind (jumpAgrees branches) fun f => agreeRefl _
      · exact agreeRead fun c => agreeBind (jumpAgrees branches) fun f => agreeRefl _
      · exact plainAgrees (.reading operands branches) computed

end Machine

namespace Lowering

/-- All that reads a literal behind lowering, in any state: the result is that of the same
instruction with a temporary of 32 bits in the place of the literal, but for the clashes. -/
theorem loweredLiteralReads {c : Config} {p p' : Program} (run : (pass c).run p = .ok p') :
    ∀ f ∈ p'.functions, ∀ b ∈ f.blocks, ∀ j ∈ b.instrs, ∀ (m : Machine) (s : State)
      (after : List Instr) (j' : Instr), Variant s.frame j j' →
      (Agree (m.step s j after) (m.step s j' after) ↔
        ¬ (Defines s.frame j ∧ Clash m.domain s.frame j j')) := by
  intro f member b block j instr m s after j' variant
  obtain ⟨_, -, _, -, i, -, admitted⟩ := runAdmits run f member b block j instr
  have free : j.op.floatFree = true := by
    simp only [admits, Bool.and_eq_true] at admitted
    exact admitted.1
  exact Machine.literalReads variant free

def widenFunction : Function where
  name := "widen"
  sig := .ofTypes [] [.i64]
  blocks := [⟨"entry", [], [
    { Instr.blank .tofixed with
      type := .i32, results := [⟨0, .i32⟩], operands := [.int (-65536)] },
    { Instr.blank .zext with type := .i64, results := [⟨1, .i64⟩], operands := [.temp 0] },
    { Instr.blank .ret with operands := [.temp 1] }]⟩]
  slots := []
  valueNames := []

def widenLiteral : Instr :=
  { Instr.blank .zext with type := .i64, results := [⟨1, .i64⟩], operands := [.int (-65536)] }

def widenMachine : Machine := ⟨⟨[], [{ widenFunction with
  blocks := [⟨"entry", [], [widenLiteral, { Instr.blank .ret with operands := [.temp 1] }]⟩] }]⟩,
  none, .ieee⟩

def widenState : State := ⟨⟨widenFunction, "entry", [], #[Word.ofInt64 (-65536), 0], 0⟩, [], .empty⟩

theorem widenedLiteralDiffers : (⟨[], [widenFunction]⟩ : Program).WellFormed ∧
    ¬ Agree (widenMachine.step widenState widenLiteral [])
      (widenMachine.step widenState { widenLiteral with operands := [.temp 0] } []) := by
  have run : (pass ⟨.empty, .host, .fixed16x16⟩).run ⟨[], [widenFunction]⟩ =
      .ok widenMachine.program := okOfOption (by decide +kernel)
  have variant : Variant widenState.frame widenLiteral { widenLiteral with operands := [.temp 0] } :=
    .reading (.cons (.held (by decide +kernel) rfl) .nil) .nil
  have reads := loweredLiteralReads run _ List.mem_cons_self _ List.mem_cons_self widenLiteral
    List.mem_cons_self widenMachine widenState [] _ variant
  refine ⟨by decide +kernel, fun agree => reads.mp agree ⟨?_, ?_⟩⟩
  · exact ⟨⟨1, .i64⟩, [], rfl, by decide⟩
  · exact .widened rfl rfl rfl rfl (by decide)

end Lowering
end FixedIL
