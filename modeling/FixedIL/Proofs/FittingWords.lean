import FixedIL.Machine.Compute
import FixedIL.Proofs.Words

/-!
Words that are numbers of their type: truth as one bit, integers in the range of their width.
Operations on integers cut their result to its type. Conversions from floats only hold it in the
range of the type, which for truth is the range of one signed bit, or do not look at the type.
-/
namespace FixedIL

namespace Word

def Fits : Ty → Word → Prop
  | .i1, w => w = 0 ∨ w = 1
  | .i8, w => -128 ≤ w.toInt64.toInt ∧ w.toInt64.toInt < 128
  | .i16, w => -32768 ≤ w.toInt64.toInt ∧ w.toInt64.toInt < 32768
  | .i32, w => -2147483648 ≤ w.toInt64.toInt ∧ w.toInt64.toInt < 2147483648
  | _, _ => True

instance (t : Ty) (w : Word) : Decidable (w.Fits t) :=
  match t with
  | .i1 => inferInstanceAs (Decidable (_ ∨ _))
  | .i8 | .i16 | .i32 => inferInstanceAs (Decidable (_ ∧ _))
  | .void | .i64 | .f32 | .f64 | .ptr => inferInstanceAs (Decidable True)

variable {t : Ty} {w : Word}

theorem fitsWide (wide : isNarrow t = false) : w.Fits t := by
  cases t with
  | i1 | i8 | i16 | i32 => cases wide
  | _ => trivial

theorem fitsNormalized (t : Ty) (w : Word) : (normalize t w).Fits t := by
  cases t with
  | i1 => exact lowBit w
  | i8 =>
    have number : (normalize .i8 w).toInt64.toInt = w.toUInt8.toInt8.toInt :=
      Int8.toInt_toInt64 _
    have low := w.toUInt8.toInt8.le_toInt
    have high := w.toUInt8.toInt8.toInt_lt
    simp only [Fits, number]
    omega
  | i16 =>
    have number : (normalize .i16 w).toInt64.toInt = w.toUInt16.toInt16.toInt :=
      Int16.toInt_toInt64 _
    have low := w.toUInt16.toInt16.le_toInt
    have high := w.toUInt16.toInt16.toInt_lt
    simp only [Fits, number]
    omega
  | i32 =>
    have number : (normalize .i32 w).toInt64.toInt = (low w).toInt := Int32.toInt_toInt64 _
    have low' := (low w).le_toInt
    have high := (low w).toInt_lt
    simp only [Fits, number]
    omega
  | _ => trivial

theorem normalizeFits (fits : w.Fits t) : normalize t w = w := by
  cases t with
  | i1 => rcases fits with rfl | rfl <;> rfl
  | i8 =>
    have cut : w.toUInt8.toInt8 = w.toInt64.toInt8 :=
      Int8.toBitVec_inj.mp (BitVec.signExtend_eq_setWidth_of_le w.toBitVec (by decide)).symm
    have same : w.toInt64.toInt8.toInt64 = w.toInt64 := by
      apply Int64.toInt_inj.mp
      rw [Int8.toInt_toInt64, Int64.toInt_toInt8]
      exact Int.bmod_eq_of_le fits.1 fits.2
    rw [normalize, cut, same]
    rfl
  | i16 =>
    have cut : w.toUInt16.toInt16 = w.toInt64.toInt16 :=
      Int16.toBitVec_inj.mp (BitVec.signExtend_eq_setWidth_of_le w.toBitVec (by decide)).symm
    have same : w.toInt64.toInt16.toInt64 = w.toInt64 := by
      apply Int64.toInt_inj.mp
      rw [Int16.toInt_toInt64, Int64.toInt_toInt16]
      exact Int.bmod_eq_of_le fits.1 fits.2
    rw [normalize, cut, same]
    rfl
  | i32 =>
    have same : w.toInt64.toInt32.toInt64 = w.toInt64 := by
      apply Int64.toInt_inj.mp
      rw [Int32.toInt_toInt64, Int64.toInt_toInt32]
      exact Int.bmod_eq_of_le fits.1 fits.2
    have cut : low w = w.toInt64.toInt32 := lowOfInt64 w.toInt64
    rw [normalizeI32, cut, ofInt32, same]
    rfl
  | _ => rfl

theorem fitsBool (t : Ty) (b : Bool) : (ofBool b).Fits t := by
  cases t <;> cases b <;> decide

theorem fitsZero (t : Ty) : Fits t 0 := fitsBool t false

theorem fitsBit (t : Ty) (w : Word) : (w &&& 1).Fits t := by
  rcases lowBit w with zero | one
  · rw [zero]
    exact fitsBool t false
  · rw [one]
    exact fitsBool t true

theorem fitsInt32 (v : Int32) : (ofInt32 v).Fits .i32 := by
  rw [← normalizeOfInt32]
  exact fitsNormalized .i32 _

end Word

namespace Binary64

theorem truncateBounds {lo hi : Int} (x : Binary64) (least : lo ≤ 0) (greatest : 0 ≤ hi) :
    lo ≤ x.truncateWithin lo hi ∧ x.truncateWithin lo hi ≤ hi := by
  unfold truncateWithin clamp
  split
  · exact ⟨least, greatest⟩
  · split <;> omega
  · split
    · omega
    · split <;> omega

end Binary64

/-- Operations that leave more of a number than their type holds. -/
def Opcode.uncut (op : Opcode) (t : Ty) : Bool :=
  match op with
  | .fptosi => t = .i1
  | .tofixed => t = .i1 || t = .i8 || t = .i16
  | .fconst | .frem | .sitofp | .fpext | .fptrunc | .fromfixed | .stackaddr => Word.isNarrow t
  | _ => false

namespace FloatDomain

theorem truncateFits {t : Ty} (number : t ≠ .i1) (x : Float) :
    (Word.ofInt64 (truncateTo t x)).Fits t := by
  have range (top : Int) (low : 0 < top) (high : top ≤ 9223372036854775808)
      (is : ((Nat.pow 2 (t.width - 1) : Nat) : Int) = top) :
      -top ≤ (truncateTo t x).toInt ∧ (truncateTo t x).toInt < top := by
    have least : -top ≤ 0 := by omega
    have greatest : 0 ≤ top - 1 := by omega
    have bounds := (Binary64.ofFloat x).truncateBounds least greatest
    unfold truncateTo
    simp only [is]
    rw [Int64.toInt_ofInt_of_le (by omega) (by omega)]
    omega
  cases t with
  | i1 => exact absurd rfl number
  | i8 => exact range 128 (by decide) (by decide) rfl
  | i16 => exact range 32768 (by decide) (by decide) rfl
  | i32 => exact range 2147483648 (by decide) (by decide) rfl
  | _ => trivial

theorem loadFits (d : FloatDomain) (t : Ty) (bytes : List UInt8) : (d.load t bytes).Fits t := by
  unfold load
  cases t with
  | void => trivial
  | f32 | f64 => trivial
  | _ => exact Word.fitsNormalized _ _

theorem computeFits {typeOf? : Value → Option Ty} {i : Instr} {words : List Word} {w : Word}
    (cut : i.op.uncut i.type = false) (arith : ∀ op, i.op = .float op → i.type.isFloat = true)
    (arms : i.op = .select → ∀ a ∈ words.drop 1, a.Fits i.type)
    (gives : ieee.compute typeOf? i words = .ok w) : w.Fits i.type := by
  cases narrow : Word.isNarrow i.type with
  | false => exact Word.fitsWide narrow
  | true =>
    have other {op : Opcode} (is : i.op = op) (whole : op.uncut i.type = Word.isNarrow i.type) :
        False := by
      rw [is, whole, narrow] at cut
      cases cut
    unfold compute at gives
    split at gives
    · cases gives
      exact Word.fitsNormalized _ _
    · exact (other ‹i.op = .fconst› rfl).elim
    · rename_i op a b _ _
      cases value : op.eval? i.type a b with
      | none =>
        rw [value] at gives
        cases gives
      | some v =>
        rw [value] at gives
        cases gives
        obtain ⟨raw, -, rfl⟩ := Option.map_eq_some_iff.mp value
        exact Word.fitsNormalized _ _
    · cases gives
      exact Word.fitsBool _ _
    · cases gives
      exact Word.fitsNormalized _ _
    · cases gives
      exact Word.fitsNormalized _ _
    · cases gives
      exact Word.fitsNormalized _ _
    · cases gives
      exact Word.fitsNormalized _ _
    · cases gives
      exact Word.fitsBit _ _
    · rename_i c a b _ isSelect
      cases gives
      split
      · exact arms isSelect a List.mem_cons_self
      · exact arms isSelect b (List.mem_cons_of_mem _ List.mem_cons_self)
    · rename_i op _ _ isFloat
      have float := arith op isFloat
      cases is : i.type <;> simp [is, Ty.isFloat, Word.isNarrow] at float narrow
    · exact (other ‹i.op = .frem› rfl).elim
    · cases gives
      exact Word.fitsBool _ _
    · exact (other ‹i.op = .sitofp› rfl).elim
    · rename_i isTruncate
      cases gives
      refine truncateFits (fun is => ?_) _
      simp [isTruncate, Opcode.uncut, is] at cut
    · exact (other ‹i.op = .fpext› rfl).elim
    · exact (other ‹i.op = .fptrunc› rfl).elim
    · rename_i isFixed
      cases gives
      have wide : i.type = .i32 := by
        cases is : i.type <;> simp [isFixed, Opcode.uncut, is, Word.isNarrow] at cut narrow ⊢
      rw [wide]
      exact Word.fitsInt32 _
    · exact (other ‹i.op = .fromfixed› rfl).elim
    · cases gives

end FloatDomain
end FixedIL
