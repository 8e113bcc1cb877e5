import FixedIL.Proofs.SequenceSteps

/-!
The words that the sequences of float operations leave, for any words of their operands.
A division stops where the low half of its divisor is zero and the whole word is not; a
square root never stops.
-/
namespace FixedIL.Lowering.Sequence

open Emit Word

def negWord (a : Word) : Word := normalize .i32 (0 - a)

def isZeroWord (a : Word) : Bool := a = 0

def isNegWord (a : Word) : Bool := a.toInt64 < 0

def isPositiveWord (a : Word) : Bool := 0 < a.toInt64

def isLessWord (a b : Word) : Bool := a.toInt64 < b.toInt64

def magnitudeWord (a : Word) : Word :=
  unsigned .i32 (if isNegWord a then negWord a else a)

def scaleByWord (a recip : Word) : Word := ((a * recip) <<< 1) >>> 16

def divisorWord (b : Word) : Word := if isZeroWord b then ofInt64 1 else magnitudeWord b

def quotientWord (a b : Word) : Word :=
  normalize .i32 (scaleByWord (magnitudeWord a) (ofInt64 numerator / divisorWord b))

def divWord (a b : Word) : Word :=
  if isZeroWord b then
    if isZeroWord a then ofInt64 0 else if isNegWord a then ofInt64 least else ofInt64 greatest
  else if isNegWord (normalize .i32 (a ^^^ b)) then negWord (quotientWord a b)
  else quotientWord a b

def clampWord (guess : Word) : Word :=
  if isLessWord guess (ofInt64 greatest) then guess else ofInt64 greatest

def refineWord (scaled guess : Word) : Word :=
  let quotient := scaleByWord scaled (ofInt64 numerator / clampWord guess)
  let halved := ((guess + quotient).toInt64 >>> 1).toUInt64
  if isZeroWord halved then ofInt64 1 else halved

def refineWordTimes (scaled : Word) : Nat → Word → Word
  | 0, guess => guess
  | n + 1, guess => refineWordTimes scaled n (refineWord scaled guess)

def scaledWord (x : Word) : Word := (if isPositiveWord x then x else ofInt64 1) <<< 16

def initialWord (scaled : Word) : Word :=
  let first := (scaled.toInt64 >>> 9).toUInt64
  if isLessWord first (ofInt64 1) then ofInt64 1 else first

def rootWord (x : Word) : Word :=
  let scaled := scaledWord x
  normalize .i32
    ((refineWordTimes scaled Fixed.Sqrt.steps (initialWord scaled)).toInt64 >>> 8).toUInt64

def mulWord (a b : Word) : Word := normalize .i32 ((a * b).toInt64 >>> 16).toUInt64

def ofFloatOpWord (op : FloatOp) (a b : Word) : Word :=
  match op with
  | .add => normalize .i32 (a + b)
  | .sub => normalize .i32 (a - b)
  | .mul => mulWord a b
  | .div => divWord a b
  | .neg => negWord a
  | .abs => if isNegWord a then negWord a else a
  | .min => if isLessWord a b then a else b
  | .max => if isLessWord b a then a else b
  | .sqrt => if isPositiveWord a then rootWord a else ofInt64 0

variable {m : Machine} {stops : TrapCause → Prop} {b : Frontier} {known : List Binding}
  {e : Emission} {Q : Value → Emission → (State → Prop) → Prop} {u v : Value}
  {t t' : Option Ty} {w w' : Word}

theorem udivValue {a d : Word} (safe : d ≠ 0) : IntOp.eval? .udiv .i64 a d = some (a / d) := by
  simp [IntOp.eval?, IntOp.raw?, unsigned, Word.normalize, safe]

theorem shiftLeftValue (a : Word) :
    IntOp.eval? .shl .i64 a (ofInt64 fraction) = some (a <<< 16) := rfl

theorem shiftRightValue (a : Word) {n : Int64}
    (small : IntOp.amount .i64 (ofInt64 n) = ofInt64 n) :
    IntOp.eval? .ashr .i64 a (ofInt64 n) = some (a.toInt64 >>> n).toUInt64 := by
  simp only [IntOp.eval?, IntOp.raw?, small, Option.map_some, Word.normalize]
  rfl

theorem udivNone {a d : Word} (zero : d = 0) : IntOp.eval? .udiv .i64 a d = none := by
  simp [IntOp.eval?, IntOp.raw?, unsigned, zero]

def Leaves (b : Frontier) (w : Word) (v : Value) (_ : Emission) (P : State → Prop) : Prop :=
  v = .temp b.result ∧ ∀ s, P s → b.Done w s

theorem leavesDone {e : Emission} : Leaves b w (.temp b.result) e (b.Done w) := ⟨rfl, fun _ h => h⟩

theorem makesMagnitude [Knows known u t w] [Knows known v t' (ofBool (isNegWord w))]
    (q : ∀ id e' k k', Q (.temp id) e'
      (b.Scope m (⟨.temp id, some .i64, magnitudeWord w⟩ :: k :: k' :: known) e')) :
    Makes m stops (b.Scope m known e) (magnitude u v) e Q := by
  refine makesBind (makesInt rfl fun negated e₁ => ?_)
  refine makesBind (makesSelect fun narrow e₂ => ?_)
  exact makesEmit yieldsZext fun wide e₃ => q wide e₃ _ _

theorem makesScaleBy [Knows known u t w] [Knows known v t' w']
    (q : ∀ id e' k k', Q (.temp id) e'
      (b.Scope m (⟨.temp id, some .i64, scaleByWord w w'⟩ :: k :: k' :: known) e')) :
    Makes m stops (b.Scope m known e) (scaleBy u v) e Q := by
  refine makesBind (makesInt rfl fun product e₁ => ?_)
  refine makesBind (makesInt rfl fun doubled e₂ => ?_)
  exact makesInt (r := scaleByWord w w') rfl fun scaled e₃ => q scaled e₃ _ _

theorem divMakes [Knows known u t w] [Knows known v t' w'] (safe : divisorWord w' ≠ 0) :
    Makes m stops (b.Scope m known e) (div u v b.result) e (Leaves b (divWord w w')) := by
  refine makesBind (makesCompare fun bIsZero e₁ => ?_)
  refine makesBind (makesCompare fun aIsZero e₂ => ?_)
  refine makesBind (makesCompare fun aIsNeg e₃ => ?_)
  refine makesBind (makesCompare fun bIsNeg e₄ => ?_)
  refine makesBind (makesMagnitude (u := u) fun absA e₅ _ _ => ?_)
  refine makesBind (makesMagnitude (u := v) fun absB e₆ _ _ => ?_)
  refine makesBind (makesSelect fun divisor e₇ => ?_)
  refine makesBind (makesInt (udivValue safe) fun recip e₈ => ?_)
  refine makesBind (makesScaleBy fun scaled e₉ _ _ => ?_)
  refine makesBind (makesEmit yieldsTrunc fun quotient e₁₀ => ?_)
  refine makesBind (makesInt rfl fun signs e₁₁ => ?_)
  refine makesBind (makesCompare fun differ e₁₂ => ?_)
  refine makesBind (makesInt rfl fun negated e₁₃ => ?_)
  refine makesBind (makesSelect fun withSign e₁₄ => ?_)
  refine makesBind (makesSelect fun extreme e₁₅ => ?_)
  refine makesBind (makesSelect fun byZero e₁₆ => ?_)
  refine makesDefine yieldsSelect fun e₁₇ => ?_
  rw [Word.isTrueOfBool]
  exact leavesDone

theorem magnitudeWordZero (w : Word) : magnitudeWord w = 0 ↔ low w = 0 := by
  have half (v : Word) : unsigned .i32 v = 0 ↔ low v = 0 := by
    rw [unsignedI32]
    constructor
    · intro zero
      have small : v.toUInt32 = 0 := by
        rw [← UInt32.toUInt32_toUInt64 v.toUInt32, zero]
        rfl
      rw [low, small]
      rfl
    · intro zero
      have small : v.toUInt32 = 0 := by
        rw [← UInt32.toUInt32_toInt32 v.toUInt32]
        exact congrArg Int32.toUInt32 zero
      rw [small]
      rfl
  have negated : low (negWord w) = -low w := by
    rw [negWord, normalizeI32, lowOfInt32, lowSub]
    exact Int32.zero_sub _
  rw [magnitudeWord, half]
  split
  · rw [negated]
    exact (Int32.neg_inj (b := 0) : -low w = -0 ↔ low w = 0)
  · exact Iff.rfl

theorem divisorWordZero (w : Word) : divisorWord w = 0 ↔ w ≠ 0 ∧ low w = 0 := by
  unfold divisorWord isZeroWord
  by_cases zero : w = 0
  · simp only [zero, decide_true, if_true, ne_eq, not_true_eq_false, false_and, iff_false]
    decide
  · simp [zero, magnitudeWordZero]

theorem neverScaleBy (q : ∀ id e', Q (.temp id) e' fun _ => False) :
    Makes m stops (fun _ => False) (scaleBy u v) e Q := by
  refine makesBind (makesNever fun product e₁ => ?_)
  refine makesBind (makesNever fun doubled e₂ => ?_)
  exact makesNever q

theorem divStops [Knows known u t w] [Knows known v t' w'] (unsafe_ : divisorWord w' = 0)
    (allowed : stops .divisionByZero) :
    Makes m stops (b.Scope m known e) (div u v b.result) e
      fun _ _ P => ∀ s, ¬ P s := by
  refine makesBind (makesCompare fun bIsZero e₁ => ?_)
  refine makesBind (makesCompare fun aIsZero e₂ => ?_)
  refine makesBind (makesCompare fun aIsNeg e₃ => ?_)
  refine makesBind (makesCompare fun bIsNeg e₄ => ?_)
  refine makesBind (makesMagnitude (u := u) fun absA e₅ _ _ => ?_)
  refine makesBind (makesMagnitude (u := v) fun absB e₆ _ _ => ?_)
  refine makesBind (makesSelect fun divisor e₇ => ?_)
  refine makesBind (makesStop (yieldsNoInt (udivNone unsafe_)) allowed fun recip e₈ => ?_)
  refine makesBind (neverScaleBy fun scaled e₉ => ?_)
  refine makesBind (makesNever fun quotient e₁₀ => ?_)
  refine makesBind (makesNever fun signs e₁₁ => ?_)
  refine makesBind (makesNever fun differ e₁₂ => ?_)
  refine makesBind (makesNever fun negated e₁₃ => ?_)
  refine makesBind (makesNever fun withSign e₁₄ => ?_)
  refine makesBind (makesNever fun extreme e₁₅ => ?_)
  refine makesBind (makesNever fun byZero e₁₆ => ?_)
  exact neverDefine fun _ _ never => never

theorem makesRefine [Knows known u t w] [Knows known v t' w'] (nonzero : w' ≠ 0)
    (q : ∀ id e' known', (∀ x r y, Knows known x r y → Knows known' x r y) → Q (.temp id) e'
      (b.Scope m (⟨.temp id, some .i64, refineWord w w'⟩ :: known') e')) :
    Makes m stops (b.Scope m known e) (refine u v) e Q := by
  have safe : clampWord w' ≠ 0 := by
    unfold clampWord
    split
    · exact nonzero
    · decide
  refine makesBind (makesCompare fun inRange e₁ => ?_)
  refine makesBind (makesSelect fun clamped e₂ => ?_)
  refine makesBind (makesInt (udivValue safe) fun recip e₃ => ?_)
  refine makesBind (makesScaleBy fun quotient e₄ _ _ => ?_)
  refine makesBind (makesInt rfl fun sum e₅ => ?_)
  refine makesBind (makesInt (shiftRightValue _ (by decide)) fun halved e₆ => ?_)
  refine makesBind (makesCompare fun isZero e₇ => ?_)
  exact makesSelect fun next e₈ => q next e₈ _ fun _ _ _ _ => inferInstance

theorem refineWordNonzero (scaled guess : Word) : refineWord scaled guess ≠ 0 := by
  unfold refineWord
  simp only
  split
  · decide
  · rename_i positive
    simpa [isZeroWord] using positive

theorem makesRefineTimes (n : Nat) [Knows known u t w] [Knows known v t' w'] (nonzero : w' ≠ 0)
    (q : ∀ v' t'' e' known', (∀ x r y, Knows known x r y → Knows known' x r y) →
      Knows known' v' t'' (refineWordTimes w n w') → Q v' e' (b.Scope m known' e')) :
    Makes m stops (b.Scope m known e) (refineTimes u n v) e Q := by
  induction n generalizing known e v t' w' with
  | zero => exact makesPure (q v t' e known (fun _ _ _ h => h) inferInstance)
  | succ n ih =>
    refine makesBind (makesRefine nonzero fun next e₁ known₁ carried => ?_)
    have := carried u t w inferInstance
    refine ih (refineWordNonzero w w') fun v' t'' e' known' carried' knows => ?_
    refine q v' t'' e' known' (fun x r y old => ?_) knows
    have := carried x r y old
    exact carried' x r y inferInstance

theorem initialWordNonzero (scaled : Word) : initialWord scaled ≠ 0 := by
  unfold initialWord
  simp only
  split
  · decide
  · rename_i large
    intro zero
    rw [zero] at large
    exact large rfl

theorem sqrtMakes [Knows known u t w] :
    Makes m stops (b.Scope m known e) (sqrt u b.result) e
      (Leaves b (if isPositiveWord w then rootWord w else ofInt64 0)) := by
  refine makesBind (makesCompare fun positive e₁ => ?_)
  refine makesBind (makesSelect fun input e₂ => ?_)
  refine makesBind (makesWiden (by decide) fun wide e₃ => ?_)
  refine makesBind
    (makesInt (shiftLeftValue (if isPositiveWord w then w else ofInt64 1)) fun scaled e₄ => ?_)
  refine makesBind (makesInt (shiftRightValue _ (by decide)) fun first e₅ => ?_)
  refine makesBind (makesCompare fun tooSmall e₆ => ?_)
  refine makesBind (makesSelect fun initial e₇ => ?_)
  refine makesBind (makesRefineTimes (w := scaledWord w) Fixed.Sqrt.steps
    (initialWordNonzero (scaledWord w))
    fun guess _ e₈ known' carried knows => ?_)
  have := carried (.temp positive) (some .i1) (ofBool (isPositiveWord w)) inferInstance
  refine makesBind (makesInt (shiftRightValue _ (by decide)) fun shifted e₉ => ?_)
  refine makesBind (makesEmit yieldsTrunc fun root e₁₀ => ?_)
  refine makesDefine yieldsSelect fun e₁₁ => ?_
  rw [Word.isTrueOfBool]
  exact leavesDone

theorem absMakes [Knows known u t w] :
    Makes m stops (b.Scope m known e) (abs u b.result) e
      (Leaves b (if isNegWord w then negWord w else w)) := by
  refine makesBind (makesCompare fun isNeg e₁ => ?_)
  refine makesBind (makesInt rfl fun negated e₂ => ?_)
  refine makesDefine yieldsSelect fun e₃ => ?_
  rw [Word.isTrueOfBool]
  exact leavesDone

theorem minMakes [Knows known u t w] [Knows known v t' w'] :
    Makes m stops (b.Scope m known e) (min u v b.result) e
      (Leaves b (if isLessWord w w' then w else w')) := by
  refine makesBind (makesCompare fun less e₁ => ?_)
  refine makesDefine yieldsSelect fun e₂ => ?_
  rw [Word.isTrueOfBool]
  exact leavesDone

theorem maxMakes [Knows known u t w] [Knows known v t' w'] :
    Makes m stops (b.Scope m known e) (max u v b.result) e
      (Leaves b (if isLessWord w' w then w else w')) := by
  refine makesBind (makesCompare fun greater e₁ => ?_)
  refine makesDefine yieldsSelect fun e₂ => ?_
  rw [Word.isTrueOfBool]
  exact leavesDone

theorem mulMakes [Knows known u t w] [Knows known v t' w'] (left : t ≠ some .i1)
    (right : t' ≠ some .i1) :
    Makes m stops (b.Scope m known e) (mul u v b.result) e (Leaves b (mulWord w w')) := by
  refine makesBind (makesWiden left fun wideA e₁ => ?_)
  refine makesBind (makesWiden (u := v) right fun wideB e₂ => ?_)
  refine makesBind (makesInt rfl fun product e₃ => ?_)
  refine makesBind (makesInt (shiftRightValue (w * w') (by decide)) fun shifted e₄ => ?_)
  exact makesDefine yieldsTrunc fun e₅ => leavesDone

theorem ofFloatOpMakes (op : FloatOp) [Knows known u t w] [Knows known v t' w']
    (left : t ≠ some .i1) (right : t' ≠ some .i1) (safe : op = .div → divisorWord w' ≠ 0) :
    Makes m stops (b.Scope m known e) (ofFloatOp op u v b.result) e
      (Leaves b (ofFloatOpWord op w w')) := by
  cases op with
  | add => exact makesDefine (yieldsInt rfl) fun _ => leavesDone
  | sub => exact makesDefine (yieldsInt rfl) fun _ => leavesDone
  | neg => exact makesDefine (yieldsInt rfl) fun _ => leavesDone
  | mul => exact mulMakes left right
  | div => exact divMakes (safe rfl)
  | abs => exact absMakes
  | min => exact minMakes
  | max => exact maxMakes
  | sqrt => exact sqrtMakes

def toWord32Word (type : Ty) (w : Word) : Word := normalize .i32 (signExtendFrom type w)

theorem normalizeTwice (w : Word) : normalize .i32 (normalize .i32 w) = normalize .i32 w := by
  rw [normalizeI32 w, normalizeOfInt32]

theorem shiftLeftNarrow (a : Word) :
    IntOp.eval? .shl .i32 a (ofInt64 fraction) = some (normalize .i32 (a <<< 16)) := rfl

theorem shiftRightNarrow (a : Word) :
    IntOp.eval? .ashr .i32 a (ofInt64 fraction) =
      some (normalize .i32 (a.toInt64 >>> 16).toUInt64) := rfl

theorem ofIntMakes {type : Ty} (integer : type.isInteger) [Knows known u (some type) w]
    (normal : type = .i32 → normalize .i32 w = w) :
    Makes m stops (b.Scope m known e) (ofInt u type b.result) e
      (Leaves b (normalize .i32 (toWord32Word type w <<< 16))) := by
  cases type with
  | i32 =>
    have word : toWord32Word .i32 w = w := normal rfl
    rw [word]
    exact makesBind (makesPure (makesDefine (yieldsInt (shiftLeftNarrow w)) fun _ => leavesDone))
  | i64 =>
    refine makesBind (makesEmit yieldsTrunc fun narrow e₁ => ?_)
    exact makesDefine (yieldsInt (shiftLeftNarrow _)) fun _ => leavesDone
  | i1 | i8 | i16 =>
    refine makesBind (makesEmit yieldsSext fun narrow e₁ => ?_)
    exact makesDefine (yieldsInt (shiftLeftNarrow _)) fun _ => leavesDone
  | void | f32 | f64 | ptr => cases integer

theorem toIntMakes {type : Ty} (integer : type.isInteger) (number : type ≠ .i1)
    [Knows known u t w] :
    Makes m stops (b.Scope m known e) (toInt u type b.result) e
      (Leaves b (normalize type (normalize .i32 (w.toInt64 >>> 16).toUInt64))) := by
  cases type with
  | i32 =>
    rw [normalizeTwice]
    exact makesDefine (yieldsInt (shiftRightNarrow w)) fun _ => leavesDone
  | i64 =>
    refine makesBind (makesInt (shiftRightNarrow w) fun whole e₁ => ?_)
    exact makesDefine yieldsSext fun _ => leavesDone
  | i8 | i16 =>
    refine makesBind (makesInt (shiftRightNarrow w) fun whole e₁ => ?_)
    exact makesDefine yieldsTrunc fun _ => leavesDone
  | i1 => exact absurd rfl number
  | void | f32 | f64 | ptr => cases integer

theorem compareMakes (c : FloatCompare) [Knows known u t w] [Knows known v t' w'] :
    Makes m stops (b.Scope m known e) (compare c u v b.result) e
      (Leaves b (ofBool (c.onEncodings.eval .i64 w w'))) := by
  have word (type : Ty) : c.onEncodings.eval type w w' = c.onEncodings.eval .i64 w w' := by
    cases c <;> rfl
  refine makesDefine (yieldsCompare c.onEncodings) fun _ => ?_
  rw [word (t.getD (t'.getD .i64))]
  exact leavesDone

end FixedIL.Lowering.Sequence
