import FixedIL.Proofs.Definitions
import FixedIL.Proofs.Reciprocals
import FixedIL.Proofs.SequenceWords

/-!
Every fixed-point sequence leaves the bits of its reference function. On sign-extended
operands the words of the sequences are the sign-extended results of Q16.16 arithmetic;
the guesses of a square root stay in a range where no step overflows.
-/
namespace FixedIL

namespace Fixed

def arith (op : FloatOp) (a b : Q16) : Q16 :=
  match op with
  | .add => add a b
  | .sub => sub a b
  | .mul => mul a b
  | .div => div a b
  | .neg => neg a
  | .abs => abs a
  | .min => min a b
  | .max => max a b
  | .sqrt => sqrt a

def compare (c : FloatCompare) (a b : Q16) : Bool :=
  match c with
  | .eq => a = b
  | .ne => a ≠ b
  | .lt => a < b
  | .le => a ≤ b
  | .gt => b < a
  | .ge => b ≤ a

end Fixed

namespace Lowering.Sequence

open Emit Word

theorem negWordOfInt32 (x : Int32) : negWord (ofInt32 x) = ofInt32 (Fixed.neg x) := by
  rw [negWord, normalizeI32, lowSub, lowOfInt32]
  rfl

theorem isZeroWordOfInt32 (x : Int32) : isZeroWord (ofInt32 x) = decide (x = 0) := by
  refine decide_eq_decide.mpr ⟨fun zero => ofInt32Injective zero, ?_⟩
  rintro rfl
  rfl

theorem isLessWordOfInt32 (x y : Int32) :
    isLessWord (ofInt32 x) (ofInt32 y) = decide (x < y) :=
  decide_eq_decide.mpr Int32.toInt64_lt

theorem isNegWordOfInt32 (x : Int32) : isNegWord (ofInt32 x) = decide (x < 0) :=
  isLessWordOfInt32 x 0

theorem isPositiveWordOfInt32 (x : Int32) : isPositiveWord (ofInt32 x) = decide (0 < x) :=
  isLessWordOfInt32 0 x

theorem magnitudeWordOfInt32 (x : Int32) :
    magnitudeWord (ofInt32 x) = (Fixed.magnitude x).toUInt64 := by
  rw [magnitudeWord, isNegWordOfInt32, negWordOfInt32, unsignedI32]
  by_cases neg : x < 0
  · simp [neg, Fixed.magnitude, toUInt32OfInt32, Fixed.neg, Fixed.sub]
  · simp [neg, Fixed.magnitude, toUInt32OfInt32]

theorem magnitudeNonzero {x : Int32} (nonzero : x ≠ 0) : Fixed.magnitude x ≠ 0 := by
  have word : x.toUInt32 ≠ 0 := fun zero => nonzero (congrArg UInt32.toInt32 zero)
  unfold Fixed.magnitude
  split
  · simpa using word
  · exact word

theorem divisorWordOfInt32 (y : Int32) :
    divisorWord (ofInt32 y) = if y = 0 then 1 else (Fixed.magnitude y).toUInt64 := by
  rw [divisorWord, isZeroWordOfInt32, magnitudeWordOfInt32]
  simp
  rfl

theorem divisorNonzero (y : Int32) : divisorWord (ofInt32 y) ≠ 0 := by
  rw [divisorWordOfInt32]
  split
  · decide
  · rename_i nonzero
    exact fun zero => magnitudeNonzero nonzero (UInt32.toUInt64_inj.mp zero)

theorem quotientWordOfInt32 (x : Int32) {y : Int32} (nonzero : y ≠ 0) :
    quotientWord (ofInt32 x) (ofInt32 y) = ofInt32 (Fixed.quotient x y) := by
  rw [quotientWord, divisorWordOfInt32, if_neg nonzero, magnitudeWordOfInt32, normalizeI32]
  rfl

theorem divWordOfInt32 (x y : Int32) :
    divWord (ofInt32 x) (ofInt32 y) = ofInt32 (Fixed.div x y) := by
  rw [divWord, Fixed.div, isZeroWordOfInt32, isZeroWordOfInt32, isNegWordOfInt32]
  by_cases zero : y = 0
  · simp only [zero, decide_true, if_true, decide_eq_true_eq]
    split
    · rfl
    · split <;> rfl
  · rw [quotientWordOfInt32 x zero, negWordOfInt32, normalizeI32, lowXor, lowOfInt32, lowOfInt32,
      isNegWordOfInt32]
    simp only [zero, decide_false, if_false, decide_eq_true_eq, Bool.false_eq_true]
    split <;> rfl

theorem mulWordOfInt32 (x y : Int32) :
    mulWord (ofInt32 x) (ofInt32 y) = ofInt32 (Fixed.mul x y) := by
  rw [mulWord, normalizeI32]
  exact congrArg ofInt32 (lowOfInt64 _)

theorem scaleBySmall (a r : UInt64) : (Fixed.scaleBy a r).toNat < 2 ^ 48 := by
  have value : (Fixed.scaleBy a r).toNat = ((a * r) <<< 1).toNat / 2 ^ 16 :=
    (UInt64.toNat_shiftRight ..).trans (Nat.shiftRight_eq_div_pow ..)
  have := ((a * r) <<< 1).toNat_lt
  omega

def InRange (g : Int64) : Prop := 0 < g.toInt ∧ g.toInt < 2 ^ 55

theorem refineInRange {s g : Int64} (range : InRange g) : InRange (Fixed.Sqrt.refine s g) := by
  obtain ⟨low, high⟩ := range
  have step (r : UInt64) : 0 ≤ ((g + (Fixed.scaleBy s.toUInt64 r).toInt64) >>> 1).toInt ∧
      ((g + (Fixed.scaleBy s.toUInt64 r).toInt64) >>> 1).toInt < 2 ^ 55 := by
    have small := scaleBySmall s.toUInt64 r
    have quotient := toIntSplit (Fixed.scaleBy s.toUInt64 r)
    rw [if_pos (by omega)] at quotient
    rw [shiftRightInt (k := 1) _ rfl, Int64.toInt_add, quotient, Int.bmod_eq_of_le (by omega) (by omega)]
    omega
  obtain ⟨nonneg, below⟩ := step (Fixed.reciprocal (Fixed.Sqrt.clamp g).toUInt64.toUInt32).toUInt64
  unfold Fixed.Sqrt.refine
  simp only
  split
  · exact ⟨by decide, by decide⟩
  · rename_i nonzero
    have : ((g + (Fixed.scaleBy s.toUInt64 (Fixed.reciprocal (Fixed.Sqrt.clamp g).toUInt64.toUInt32).toUInt64).toInt64) >>> 1).toInt ≠ 0 :=
      fun zero => nonzero (Int64.toInt_inj.mp zero)
    exact ⟨by omega, below⟩

theorem clampWordOfInt64 (g : Int64) : clampWord (ofInt64 g) = ofInt64 (Fixed.Sqrt.clamp g) := by
  have same : isLessWord (ofInt64 g) (ofInt64 greatest) = decide (g < greatest) := rfl
  rw [clampWord, Fixed.Sqrt.clamp, same]
  simp only [decide_eq_true_eq, apply_ite ofInt64]
  rfl

theorem recipWordOfInt64 {g : Int64} (positive : 0 < g.toInt) :
    ofInt64 numerator / clampWord (ofInt64 g) =
      (Fixed.reciprocal (Fixed.Sqrt.clamp g).toUInt64.toUInt32).toUInt64 := by
  have whole : (Fixed.Sqrt.clamp g).toUInt64.toUInt32.toUInt64 = (Fixed.Sqrt.clamp g).toUInt64 := by
    apply UInt64.toNat_inj.mp
    have range := Fixed.Sqrt.clampRange positive
    have word := natOfNonneg (Int.le_of_lt range.1)
    simp
    omega
  rw [clampWordOfInt64, Fixed.reciprocal, UInt32.toUInt64_div, whole]
  rfl

theorem refineWordOfInt64 (s : Int64) {g : Int64} (positive : 0 < g.toInt) :
    refineWord (ofInt64 s) (ofInt64 g) = ofInt64 (Fixed.Sqrt.refine s g) := by
  have half (h : Int64) : (if isZeroWord (ofInt64 h) then ofInt64 1 else ofInt64 h) =
      ofInt64 (if h = 0 then 1 else h) := by
    have same : isZeroWord (ofInt64 h) = decide (h = 0) :=
      decide_eq_decide.mpr ⟨fun zero => congrArg UInt64.toInt64 zero, fun zero => congrArg ofInt64 zero⟩
    rw [same, apply_ite ofInt64]
    simp only [decide_eq_true_eq]
  rw [refineWord, recipWordOfInt64 positive]
  exact half
    ((g + (Fixed.scaleBy s.toUInt64
      (Fixed.reciprocal (Fixed.Sqrt.clamp g).toUInt64.toUInt32).toUInt64).toInt64) >>> 1)

theorem initialInRange (x : Int32) : InRange (Fixed.Sqrt.initial x) := by
  have first := shiftRightInt (Fixed.Sqrt.scaled x) (s := 9) (k := 9) rfl
  have bound := (Fixed.Sqrt.scaled x).toInt_lt
  unfold Fixed.Sqrt.initial
  simp only
  split
  · exact ⟨by decide, by decide⟩
  · rename_i large
    have low : (1 : Int64).toInt ≤ (Fixed.Sqrt.scaled x >>> 9).toInt :=
      Int.not_lt.mp fun small => large (Int64.lt_iff_toInt_lt.mpr small)
    have one : (1 : Int64).toInt = 1 := rfl
    exact ⟨by omega, by omega⟩

theorem guessInRange (x : Int32) (k : Nat) : InRange (Fixed.Sqrt.guess x k) := by
  induction k with
  | zero => exact initialInRange x
  | succ k ih => exact refineInRange ih

/- The code takes its steps from the front, the function counts them from the back. -/
theorem refineWordTimesOfInt32 (x : Int32) (n k : Nat) :
    refineWordTimes (ofInt64 (Fixed.Sqrt.scaled x)) n (ofInt64 (Fixed.Sqrt.guess x k)) =
      ofInt64 (Fixed.Sqrt.guess x (k + n)) := by
  induction n generalizing k with
  | zero => rfl
  | succ n ih =>
    have next := refineWordOfInt64 (Fixed.Sqrt.scaled x) (guessInRange x k).1
    rw [refineWordTimes, next, ← Fixed.Sqrt.guess, ih, Nat.succ_add_eq_add_succ]

theorem scaledWordOfInt32 {x : Int32} (positive : 0 < x) :
    scaledWord (ofInt32 x) = ofInt64 (Fixed.Sqrt.scaled x) := by
  rw [scaledWord, isPositiveWordOfInt32, decide_eq_true positive]
  rfl

theorem initialWordOfInt32 (x : Int32) :
    initialWord (ofInt64 (Fixed.Sqrt.scaled x)) = ofInt64 (Fixed.Sqrt.initial x) := by
  have same (h : Int64) : isLessWord (ofInt64 h) (ofInt64 1) = decide (h < 1) := rfl
  have choice (h : Int64) : (if isLessWord (ofInt64 h) (ofInt64 1) then ofInt64 1 else ofInt64 h) =
      ofInt64 (if h < 1 then 1 else h) := by
    rw [same, apply_ite ofInt64]
    simp only [decide_eq_true_eq]
  exact choice (Fixed.Sqrt.scaled x >>> 9)

theorem rootWordOfInt32 {x : Int32} (positive : 0 < x) :
    rootWord (ofInt32 x) = ofInt32 (Fixed.Sqrt.guess x Fixed.Sqrt.steps >>> 8).toInt32 := by
  have first : ofInt64 (Fixed.Sqrt.initial x) = ofInt64 (Fixed.Sqrt.guess x 0) := rfl
  rw [rootWord]
  simp only [scaledWordOfInt32 positive, initialWordOfInt32, first]
  rw [refineWordTimesOfInt32, Nat.zero_add, normalizeI32]
  exact congrArg ofInt32 (lowOfInt64 _)

theorem ofFloatOpWordOfInt32 (op : FloatOp) (x y : Int32) :
    ofFloatOpWord op (ofInt32 x) (ofInt32 y) = ofInt32 (Fixed.arith op x y) := by
  have choice (c : Prop) [Decidable c] (p q : Int32) :
      (if decide c = true then ofInt32 p else ofInt32 q) = ofInt32 (if c then p else q) := by
    simp only [decide_eq_true_eq, apply_ite ofInt32]
  cases op with
  | add => exact congrArg ofInt32 ((lowAdd ..).trans (by rw [lowOfInt32, lowOfInt32]; rfl))
  | sub => exact congrArg ofInt32 ((lowSub ..).trans (by rw [lowOfInt32, lowOfInt32]; rfl))
  | mul => exact mulWordOfInt32 x y
  | div => exact divWordOfInt32 x y
  | neg => exact negWordOfInt32 x
  | abs =>
    simp only [ofFloatOpWord, isNegWordOfInt32, negWordOfInt32]
    exact choice (x < 0) (Fixed.neg x) x
  | min =>
    simp only [ofFloatOpWord, isLessWordOfInt32]
    exact choice (x < y) x y
  | max =>
    simp only [ofFloatOpWord, isLessWordOfInt32]
    exact choice (y < x) x y
  | sqrt =>
    simp only [ofFloatOpWord, isPositiveWordOfInt32, decide_eq_true_eq, Fixed.arith, Fixed.sqrt]
    by_cases positive : 0 < x
    · rw [if_pos positive, rootWordOfInt32 positive, if_neg (Int32.not_le.mpr positive)]
    · rw [if_neg positive, if_pos (Int32.not_lt.mp positive)]
      rfl

theorem compareWordOfInt32 (c : FloatCompare) (x y : Int32) :
    c.onEncodings.eval .i64 (ofInt32 x) (ofInt32 y) = Fixed.compare c x y := by
  cases c with
  | eq => exact decide_eq_decide.mpr ⟨ofInt32Injective, congrArg ofInt32⟩
  | ne => exact decide_eq_decide.mpr (not_congr ⟨ofInt32Injective, congrArg ofInt32⟩)
  | lt | gt => exact decide_eq_decide.mpr Int32.toInt64_lt
  | le | ge => exact decide_eq_decide.mpr Int32.toInt64_le

theorem toIntWordOfInt32 (x : Int32) :
    normalize .i32 ((ofInt32 x).toInt64 >>> 16).toUInt64 = ofInt32 (Fixed.toInt x) := by
  rw [toInt64OfInt32, shiftRightOfInt32]
  exact normalizeOfInt32 (x >>> 16)

theorem ofIntWordOfInteger (type : Ty) (w : Word) :
    normalize .i32 (toWord32Word type w <<< 16) =
      ofInt32 (Fixed.ofInt (low (signExtendFrom type w))) := by
  rw [normalizeI32, lowShiftLeft, toWord32Word, normalizeI32, lowOfInt32]
  rfl

/-- An operand of a sequence that ends in `r`: a literal of 32 bits, or a temporary of 32
bits that was reserved before and holds a sign-extended number. -/
inductive Operand (f : Frame) (next r : TempId) : Value → Int32 → Prop where
  | literal (x : Int32) : Operand f next r (.int x.toInt64) x
  | temp {id : TempId} {x : Int32} (reserved : id.toNat < next.toNat) (other : id ≠ r)
      (typed : Frame.tempType f.fn id = .i32) (held : f.regs[id.toNat]? = some (ofInt32 x)) :
      Operand f next r (.temp id) x

inductive Means (f : Frame) (next r : TempId) : Emit Value → Word → Prop where
  | arith (op : FloatOp) {u v : Value} {x y : Int32} (left : Operand f next r u x)
      (right : Operand f next r v y) :
      Means f next r (ofFloatOp op u v r) (ofInt32 (Fixed.arith op x y))
  | compare (c : FloatCompare) {u v : Value} {x y : Int32} (left : Operand f next r u x)
      (right : Operand f next r v y) :
      Means f next r (compare c u v r) (ofBool (Fixed.compare c x y))
  | toInt {type : Ty} (integer : type.isInteger) (number : type ≠ .i1) {u : Value} {x : Int32}
      (operand : Operand f next r u x) :
      Means f next r (toInt u type r) (normalize type (ofInt32 (Fixed.toInt x)))
  | ofInt {type : Ty} (integer : type.isInteger) {id : TempId} {w : Word}
      (reserved : id.toNat < next.toNat) (other : id ≠ r)
      (typed : Frame.tempType f.fn id = type) (held : f.regs[id.toNat]? = some w)
      (normal : normalize type w = w) :
      Means f next r (ofInt (.temp id) type r)
        (ofInt32 (Fixed.ofInt (low (signExtendFrom type w))))

namespace Operand

variable {f : Frame} {next r : TempId} {v : Value} {x : Int32}

theorem below (operand : Operand f next r v x) (id : TempId) (isTemp : v = .temp id) :
    id.toNat < next.toNat := by
  cases operand with
  | literal => cases isTemp
  | temp reserved other typed held =>
    cases isTemp
    exact reserved

theorem value (operand : Operand f next r v x) (d : FloatDomain) :
    f.value? d v = some (ofInt32 x) := by
  cases operand with
  | literal => rfl
  | temp reserved other typed held => exact held

theorem number (operand : Operand f next r v x) : f.typeOf? v ≠ some .i1 := by
  cases operand with
  | literal => exact nofun
  | temp reserved other typed held =>
    simp only [Frame.typeOf?, typed]
    decide

end Operand

theorem meansMakes {m : Machine} {s : State} {e : Emission} {r : TempId} {sequence : Emit Value}
    {w : Word} (means : Means s.frame e.nextTemp r sequence w)
    (inside : r.toNat < e.nextTemp.toNat) (small : s.frame.regs.size < UInt32.size) :
    let b : Frontier := ⟨s, e.nextTemp, r, inside, small⟩
    ∃ known, b.Scope m known e s ∧
      Makes m (fun _ => False) (b.Scope m known e) sequence e (Leaves b w) := by
  intro b
  cases means with
  | @arith op u v x y left right =>
    refine ⟨[⟨u, s.frame.typeOf? u, ofInt32 x⟩, ⟨v, s.frame.typeOf? v, ofInt32 y⟩],
      .start inside small ?_ ?_, ?_⟩
    · simpa using ⟨left.below, right.below⟩
    · simpa using ⟨left.value m.domain, right.value m.domain⟩
    · rw [← ofFloatOpWordOfInt32]
      exact ofFloatOpMakes op left.number right.number fun _ => divisorNonzero y
  | @compare c u v x y left right =>
    refine ⟨[⟨u, s.frame.typeOf? u, ofInt32 x⟩, ⟨v, s.frame.typeOf? v, ofInt32 y⟩],
      .start inside small ?_ ?_, ?_⟩
    · simpa using ⟨left.below, right.below⟩
    · simpa using ⟨left.value m.domain, right.value m.domain⟩
    · rw [← compareWordOfInt32]
      exact compareMakes c
  | @toInt type integer number u x operand =>
    refine ⟨[⟨u, s.frame.typeOf? u, ofInt32 x⟩], .start inside small ?_ ?_, ?_⟩
    · simpa using operand.below
    · simpa using operand.value m.domain
    · rw [← toIntWordOfInt32]
      exact toIntMakes integer number
  | @ofInt type integer id w reserved other typed held normal =>
    refine ⟨[⟨.temp id, some type, w⟩], .start inside small ?_ ?_, ?_⟩
    · simpa using reserved
    · simpa [Frame.value?, Frame.typeOf?] using ⟨held, typed⟩
    · rw [← ofIntWordOfInteger]
      refine ofIntMakes integer fun same => ?_
      rw [← same]
      exact normal

/-- Whatever has been written before, the code of a sequence never traps: one step for each
instruction leads behind it, to the word of the reference function in `r` and to no other
change of what was there. -/
theorem sequencesLeaveReferenceBits {m : Machine} {s : State} {e : Emission} {r : TempId}
    {sequence : Emit Value} {w : Word} {after : List Instr}
    (means : Means s.frame e.nextTemp r sequence w) (inside : r.toNat < e.nextTemp.toNat)
    (ahead : s.frame.rest = written sequence e ++ after)
    (carries : s.frame.Carries (written sequence e)) :
    (sequence.run e).2.code = e.code ++ written sequence e ∧
    (sequence.run e).1 = .temp r ∧
    ∃ s', m.Reaches (written sequence e).length s s' ∧ s'.frame.rest = after ∧
      s'.frame.regs[r.toNat]? = some w ∧ s'.frame.regs.size = s.frame.regs.size ∧
      Frontier.surroundings s' = Frontier.surroundings s ∧
      ∀ id, id.toNat < e.nextTemp.toNat → id ≠ r →
        s'.frame.regs[id.toNat]? = s.frame.regs[id.toNat]? := by
  have small : s.frame.regs.size < UInt32.size := carries.regs ▸ UInt32.toNat_lt_size _
  obtain ⟨known, scope, code, P, appended, ⟨value, leaves⟩, runs⟩ :=
    meansMakes (m := m) means inside small
  have same : written sequence e = code := by rw [written, appended, List.drop_left]
  rw [same] at ahead carries ⊢
  refine ⟨appended, value, ?_⟩
  rcases runs s after scope ahead carries.hosts with
    ⟨s', path, rest, -, -, holds⟩ | ⟨_, _, _, _, _, _, _, _, never⟩
  · have done := leaves s' holds
    exact ⟨s', path, rest, done.result, done.size, done.around, done.kept⟩
  · exact never.elim

def quotientFunction : Function where
  name := "quotient"
  sig := .ofTypes [.i32, .i32] [.i32]
  blocks := [⟨"entry", [⟨0, .i32⟩, ⟨1, .i32⟩],
    written (div (.temp 0) (.temp 1) 2) ⟨3, .unknown, [], []⟩ ++
      [{ Instr.blank .ret with operands := [.temp 2] }]⟩]
  slots := []
  valueNames := []

def quotientStart (x y : Int32) : State where
  frame := {
    fn := quotientFunction
    label := "entry"
    rest := written (div (.temp 0) (.temp 1) 2) ⟨3, .unknown, [], []⟩ ++
      [{ Instr.blank .ret with operands := [.temp 2] }]
    regs := #[ofInt32 x, ofInt32 y] ++ Array.replicate 23 0
    firstBuffer := 0 }
  callers := []
  memory := .empty

def quotientMachine : Machine := ⟨⟨[], [quotientFunction]⟩, none, .ieee⟩

theorem oneByMinusThree :
    ∃ s', quotientMachine.Reaches 23 (quotientStart 65536 (-196608)) s' ∧
      s'.frame.regs[2]? = some (ofInt32 (-21844)) := by
  have left : Operand (quotientStart 65536 (-196608)).frame 3 2 (.temp 0) 65536 :=
    .temp (by decide) (by decide) (by decide) rfl
  have right : Operand (quotientStart 65536 (-196608)).frame 3 2 (.temp 1) (-196608) :=
    .temp (by decide) (by decide) (by decide) rfl
  have carries : (quotientStart 65536 (-196608)).frame.Carries
      (written (div (.temp 0) (.temp 1) 2) ⟨3, .unknown, [], []⟩) := by
    refine ⟨fun i hi => ⟨_, List.mem_singleton_self _, List.mem_append_left _ hi⟩, ?_, ?_, ?_⟩
    · unfold Function.DefinesOnce
      decide +kernel
    · decide +kernel
    · decide +kernel
  have length :
      (written (ofFloatOp .div (.temp 0) (.temp 1) 2) ⟨3, .unknown, [], []⟩).length = 23 := rfl
  have value : Fixed.arith .div 65536 (-196608) = -21844 := by decide +kernel
  obtain ⟨-, -, s', path, -, result, -⟩ :=
    sequencesLeaveReferenceBits (m := quotientMachine) (e := ⟨3, .unknown, [], []⟩) (r := 2)
      (Means.arith .div left right) (by decide) rfl carries
  rw [length] at path
  rw [value] at result
  exact ⟨s', path, result⟩

end Lowering.Sequence
end FixedIL
