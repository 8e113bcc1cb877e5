import FixedIL.Proofs.Words
import FixedIL.Proofs.Writing

/-!
Integer operations as operations on bit vectors. A register holds a number of a type as a whole
word, with the sign in all bits that the type does not have. What comes out of an operation is
held alike, and its bits are those of the operation at the width of the type.
-/
namespace FixedIL

def Ty.sized : Ty → Bool
  | .i8 | .i16 | .i32 | .i64 => true
  | _ => false

namespace Ty

variable {t : Ty}

theorem sizedWidth (sized : t.sized = true) : 0 < t.width ∧ t.width ≤ 64 := by
  cases t with
  | i8 | i16 | i32 | i64 => exact ⟨by decide, by decide⟩
  | _ => cases sized

end Ty

namespace Word

variable {n : Nat} {t u : Ty} {x y : BitVec n} {a b : Word}

def ofBits (x : BitVec n) : Word := ⟨x.signExtend 64⟩

def zeroBits (x : BitVec n) : Word := ⟨x.setWidth 64⟩

def bits (n : Nat) (w : Word) : BitVec n := w.toBitVec.setWidth n

theorem bitsOfBits (narrow : n ≤ 64) (x : BitVec n) : bits n (ofBits x) = x := by
  simp only [bits, ofBits]
  rw [← BitVec.signExtend_eq_setWidth_of_le _ narrow]
  apply BitVec.eq_of_toInt_eq
  rw [BitVec.toInt_signExtend_eq_toInt_bmod_of_le _ narrow, BitVec.toInt_signExtend_of_le narrow]
  exact x.toInt_bmod_cancel

theorem ofBitsInjective (narrow : n ≤ 64) (same : ofBits x = ofBits y) : x = y := by
  rw [← bitsOfBits narrow x, same, bitsOfBits narrow]

theorem numberOfBits (narrow : n ≤ 64) (x : BitVec n) : (ofBits x).toInt64.toInt = x.toInt :=
  BitVec.toInt_signExtend_of_le narrow

theorem zeroBitsNat (narrow : n ≤ 64) (x : BitVec n) : (zeroBits x).toNat = x.toNat :=
  BitVec.toNat_setWidth_of_le narrow

theorem normalizeBits (sized : t.sized = true) (w : Word) : normalize t w = ofBits (bits t.width w) := by
  cases t with
  | i8 | i16 | i32 => rfl
  | i64 =>
    apply UInt64.toBitVec_inj.mp
    simp [normalize, ofBits, bits, Ty.width]
  | _ => cases sized

theorem unsignedBits (sized : t.sized = true) (w : Word) :
    unsigned t w = zeroBits (bits t.width w) := by
  have masked (k : Nat) (mask : UInt64) (ones : mask.toNat = 2 ^ k - 1) (small : k ≤ 64) :
      w &&& mask = zeroBits (bits k w) := by
    apply UInt64.toNat_inj.mp
    rw [zeroBitsNat small, UInt64.toNat_and, ones, Nat.and_two_pow_sub_one_eq_mod]
    exact (BitVec.toNat_setWidth k w.toBitVec).symm
  cases t with
  | i8 => exact masked 8 0xff rfl (by decide)
  | i16 => exact masked 16 0xffff rfl (by decide)
  | i32 => exact masked 32 0xffffffff rfl (by decide)
  | i64 =>
    apply UInt64.toBitVec_inj.mp
    simp [unsigned, zeroBits, bits, Ty.width]
  | _ => cases sized

theorem unsignedOfBits (sized : t.sized = true) (x : BitVec t.width) :
    unsigned t (ofBits x) = zeroBits x := by
  rw [unsignedBits sized, bitsOfBits (Ty.sizedWidth sized).2]

theorem bitsAdd (narrow : n ≤ 64) : bits n (a + b) = bits n a + bits n b :=
  BitVec.setWidth_add _ _ narrow

theorem bitsSub (narrow : n ≤ 64) : bits n (a - b) = bits n a - bits n b := by
  simp only [bits, UInt64.toBitVec_sub, BitVec.sub_eq_add_neg, BitVec.setWidth_add _ _ narrow,
    BitVec.setWidth_neg_of_le narrow]

theorem bitsMul (narrow : n ≤ 64) : bits n (a * b) = bits n a * bits n b :=
  BitVec.setWidth_mul _ _ narrow

theorem bitsAnd : bits n (a &&& b) = bits n a &&& bits n b := BitVec.setWidth_and

theorem bitsOr : bits n (a ||| b) = bits n a ||| bits n b := BitVec.setWidth_or

theorem bitsXor : bits n (a ^^^ b) = bits n a ^^^ bits n b := BitVec.setWidth_xor

theorem bitsInt (narrow : n ≤ 64) (w : Word) : (bits n w).toInt = w.toInt64.toInt.bmod (2 ^ n) := by
  simp only [bits]
  rw [← BitVec.signExtend_eq_setWidth_of_le _ narrow,
    BitVec.toInt_signExtend_eq_toInt_bmod_of_le _ narrow]
  rfl

theorem bitsDiv (narrow : n ≤ 64) (x y : BitVec n) :
    bits n ((ofBits x).toInt64 / (ofBits y).toInt64).toUInt64 = x.sdiv y := by
  apply BitVec.eq_of_toInt_eq
  have dvd : (2 : Nat) ^ n ∣ 2 ^ 64 := Nat.pow_dvd_pow 2 narrow
  rw [bitsInt narrow, Int64.toInt64_toUInt64, Int64.toInt_div, numberOfBits narrow,
    numberOfBits narrow, BitVec.toInt_sdiv, Int.bmod_bmod_of_dvd dvd]

theorem bitsRem (narrow : n ≤ 64) (x y : BitVec n) :
    bits n ((ofBits x).toInt64 % (ofBits y).toInt64).toUInt64 = x.srem y := by
  apply BitVec.eq_of_toInt_eq
  rw [bitsInt narrow, Int64.toInt64_toUInt64, Int64.toInt_mod, numberOfBits narrow,
    numberOfBits narrow, ← BitVec.toInt_srem, BitVec.toInt_bmod_cancel]

theorem ofBitsZero (narrow : n ≤ 64) : ofBits y = 0 ↔ y = 0 := by
  have zero : ofBits (0 : BitVec n) = 0 := by
    have plain : (0 : BitVec n).msb = false := BitVec.msb_zero
    rw [ofBits, BitVec.signExtend_eq_setWidth_of_msb_false plain]
    simp
  exact ⟨fun same => ofBitsInjective narrow (same.trans zero.symm), fun same => same ▸ zero⟩

theorem zeroBitsZero (narrow : n ≤ 64) : zeroBits y = 0 ↔ y = 0 := by
  rw [← UInt64.toNat_inj, zeroBitsNat narrow, ← BitVec.toNat_inj]
  simp

theorem negateDiv (a : Word) : 0 - a = (a.toInt64 / -1).toUInt64 := by
  have wraps : a.toInt64 / -1 = -a.toInt64 := by
    have one : (-1 : Int64).toInt = -1 := rfl
    rw [← Int64.toInt_inj, Int64.toInt_div, one, Int.tdiv_neg, Int.tdiv_one, Int64.toInt_neg]
  rw [wraps, UInt64.zero_sub]
  rfl

theorem negateRem (a : Word) : 0 = (a.toInt64 % -1).toUInt64 := by
  have none : a.toInt64 % -1 = 0 := by
    have one : (-1 : Int64).toInt = -1 := rfl
    rw [← Int64.toInt_inj, Int64.toInt_mod, one, Int.tmod_neg, Int.tmod_one]
    rfl
  rw [none]
  rfl

theorem amountBits (sized : t.sized = true) (y : BitVec t.width) :
    (IntOp.amount t (ofBits y)).toNat = y.toNat % t.width := by
  have low : (ofBits y).toNat % 2 ^ t.width = y.toNat := by
    have same := congrArg BitVec.toNat (bitsOfBits (Ty.sizedWidth sized).2 y)
    rwa [bits, BitVec.toNat_setWidth] at same
  have masked (k : Nat) (dvd : 2 ^ k ∣ 2 ^ t.width) (power : 2 ^ k = t.width)
      (ones : (UInt64.ofNat t.width - 1).toNat = 2 ^ k - 1) :
      (IntOp.amount t (ofBits y)).toNat = y.toNat % t.width := by
    rw [IntOp.amount, UInt64.toNat_and, ones, Nat.and_two_pow_sub_one_eq_mod, ← low,
      ← Nat.mod_mod_of_dvd _ dvd, power]
  cases t with
  | i8 => exact masked 3 (by decide) rfl rfl
  | i16 => exact masked 4 (by decide) rfl rfl
  | i32 => exact masked 5 (by decide) rfl rfl
  | i64 => exact masked 6 (by decide) rfl rfl
  | _ => cases sized

theorem bitsShl (narrow : n ≤ 64) {k : Word} (small : k.toNat < 64) :
    bits n (a <<< k) = bits n a <<< k.toNat := by
  have count : (k.toBitVec % 64).toNat = k.toNat := by
    rw [BitVec.toNat_umod]
    exact Nat.mod_eq_of_lt small
  rw [bits, UInt64.toBitVec_shiftLeft, BitVec.shiftLeft_eq', count,
    BitVec.setWidth_shiftLeft_of_le narrow]
  rfl

theorem bitsLshr (narrow : n ≤ 64) {k : Word} (small : k.toNat < 64) (x : BitVec n) :
    bits n (zeroBits x >>> k) = x >>> k.toNat := by
  have shifted : (zeroBits x >>> k).toBitVec.toNat = x.toNat >>> k.toNat := by
    have count : k.toNat % 64 = k.toNat := Nat.mod_eq_of_lt small
    rw [← UInt64.toNat, UInt64.toNat_shiftRight, zeroBitsNat narrow, count]
  apply BitVec.eq_of_toNat_eq
  rw [bits, BitVec.toNat_setWidth, BitVec.toNat_ushiftRight, shifted]
  exact Nat.mod_eq_of_lt (Nat.lt_of_le_of_lt (Nat.shiftRight_le _ _) x.isLt)

theorem bitsAshr (narrow : n ≤ 64) {k : Word} (small : k.toNat < 64) (x : BitVec n) :
    bits n ((ofBits x).toInt64 >>> k.toInt64).toUInt64 = x.sshiftRight k.toNat := by
  have count : (k.toBitVec.smod 64).toNat = k.toNat := by
    have plain : k.toBitVec.msb = false := by
      rw [BitVec.msb_eq_false_iff_two_mul_lt]
      have number : k.toBitVec.toNat < 64 := small
      omega
    have positive : (64 : BitVec 64).msb = false := by decide
    simp only [BitVec.smod_eq, plain, positive]
    exact Nat.mod_eq_of_lt small
  have shifted : ((ofBits x).toInt64 >>> k.toInt64).toInt = x.toInt >>> k.toNat := by
    rw [← Int64.toInt_toBitVec, Int64.toBitVec_shiftRight, BitVec.sshiftRight_eq',
      UInt64.toBitVec_toInt64, UInt64.toBitVec_toInt64, count, BitVec.toInt_sshiftRight]
    exact congrArg (fun number : Int => number >>> k.toNat) (numberOfBits narrow x)
  apply BitVec.eq_of_toInt_eq
  rw [bitsInt narrow, Int64.toInt64_toUInt64, shifted, ← BitVec.toInt_sshiftRight,
    BitVec.toInt_bmod_cancel]

theorem bitsUdiv (narrow : n ≤ 64) (x y : BitVec n) : bits n (zeroBits x / zeroBits y) = x / y := by
  have quotient : (zeroBits x / zeroBits y).toBitVec.toNat = x.toNat / y.toNat := by
    rw [← UInt64.toNat, UInt64.toNat_div, zeroBitsNat narrow, zeroBitsNat narrow]
  apply BitVec.eq_of_toNat_eq
  rw [bits, BitVec.toNat_setWidth, BitVec.toNat_udiv, quotient]
  exact Nat.mod_eq_of_lt (Nat.lt_of_le_of_lt (Nat.div_le_self _ _) x.isLt)

theorem bitsUrem (narrow : n ≤ 64) (x y : BitVec n) : bits n (zeroBits x % zeroBits y) = x % y := by
  have rest : (zeroBits x % zeroBits y).toBitVec.toNat = x.toNat % y.toNat := by
    rw [← UInt64.toNat, UInt64.toNat_mod, zeroBitsNat narrow, zeroBitsNat narrow]
  apply BitVec.eq_of_toNat_eq
  rw [bits, BitVec.toNat_setWidth, BitVec.toNat_umod, rest]
  exact Nat.mod_eq_of_lt (Nat.lt_of_le_of_lt (Nat.mod_le _ _) x.isLt)

theorem bitsSext {k : Nat} (narrow : n ≤ k) (fits : k ≤ 64) (x : BitVec n) :
    bits k (ofBits x) = x.signExtend k := by
  apply BitVec.eq_of_toInt_eq
  rw [bitsInt fits, numberOfBits (Nat.le_trans narrow fits), ← BitVec.toInt_signExtend_of_le narrow,
    BitVec.toInt_bmod_cancel]

theorem bitsZext {k : Nat} (fits : k ≤ 64) (x : BitVec n) : bits k (zeroBits x) = x.setWidth k :=
  BitVec.setWidth_setWidth_of_le x fits

theorem bitsTrunc {k : Nat} (less : k ≤ n) (narrow : n ≤ 64) (x : BitVec n) :
    bits k (ofBits x) = x.setWidth k := by
  rw [bits, ← BitVec.setWidth_setWidth_of_le (ofBits x).toBitVec less]
  exact congrArg (BitVec.setWidth k) (bitsOfBits narrow x)

end Word

namespace IntOp

def onBits {n : Nat} (op : IntOp) (x y : BitVec n) : Option (BitVec n) :=
  match op with
  | .add => some (x + y)
  | .sub => some (x - y)
  | .mul => some (x * y)
  | .and => some (x &&& y)
  | .or => some (x ||| y)
  | .xor => some (x ^^^ y)
  | .sdiv => if y = 0 then none else some (x.sdiv y)
  | .udiv => if y = 0 then none else some (x / y)
  | .srem => if y = 0 then none else some (x.srem y)
  | .urem => if y = 0 then none else some (x % y)
  | .shl => some (x <<< (y.toNat % n))
  | .lshr => some (x >>> (y.toNat % n))
  | .ashr => some (x.sshiftRight (y.toNat % n))

theorem rawSdiv (t : Ty) (a b : Word) :
    IntOp.sdiv.raw? t a b = if b = 0 then none else some (a.toInt64 / b.toInt64).toUInt64 := by
  simp only [raw?]
  split
  · rfl
  · split
    · rename_i minus
      rw [minus, Word.negateDiv]
    · rfl

theorem rawSrem (t : Ty) (a b : Word) :
    IntOp.srem.raw? t a b = if b = 0 then none else some (a.toInt64 % b.toInt64).toUInt64 := by
  simp only [raw?]
  split
  · rfl
  · split
    · rename_i minus
      rw [minus, ← Word.negateRem]
    · rfl

section Bits

variable {t : Ty} {w d : Word} {x y z : BitVec t.width}

open Word

theorem normalBits (sized : t.sized = true) (same : bits t.width w = z) :
    (some w).map (normalize t) = (some z).map ofBits := by
  rw [Option.map_some, normalizeBits sized, same, Option.map_some]

theorem dividedBits (sized : t.sized = true) (zero : d = 0 ↔ y = 0) (same : bits t.width w = z) :
    (if d = 0 then none else some w).map (normalize t) =
      (if y = 0 then none else some z).map ofBits := by
  by_cases divisor : y = 0
  · rw [if_pos divisor, if_pos (zero.mpr divisor)]
    rfl
  · rw [if_neg divisor, if_neg (mt zero.mp divisor), normalBits sized same]

theorem evalBits (sized : t.sized = true) (op : IntOp) (x y : BitVec t.width) :
    op.eval? t (ofBits x) (ofBits y) = (op.onBits x y).map ofBits := by
  have narrow := (Ty.sizedWidth sized).2
  have count := amountBits sized y
  have small : (amount t (ofBits y)).toNat < 64 := by
    rw [count]
    exact Nat.lt_of_lt_of_le (Nat.mod_lt _ (Ty.sizedWidth sized).1) narrow
  have first := bitsOfBits narrow x
  have second := bitsOfBits narrow y
  cases op with
  | add => exact normalBits sized (by rw [bitsAdd narrow, first, second])
  | sub => exact normalBits sized (by rw [bitsSub narrow, first, second])
  | mul => exact normalBits sized (by rw [bitsMul narrow, first, second])
  | and => exact normalBits sized (by rw [bitsAnd, first, second])
  | or => exact normalBits sized (by rw [bitsOr, first, second])
  | xor => exact normalBits sized (by rw [bitsXor, first, second])
  | sdiv =>
    rw [eval?, rawSdiv]
    exact dividedBits sized (ofBitsZero narrow) (bitsDiv narrow x y)
  | srem =>
    rw [eval?, rawSrem]
    exact dividedBits sized (ofBitsZero narrow) (bitsRem narrow x y)
  | udiv =>
    simp only [eval?, raw?, unsignedOfBits sized]
    exact dividedBits sized (zeroBitsZero narrow) (bitsUdiv narrow x y)
  | urem =>
    simp only [eval?, raw?, unsignedOfBits sized]
    exact dividedBits sized (zeroBitsZero narrow) (bitsUrem narrow x y)
  | shl => exact normalBits sized (by rw [bitsShl narrow small, first, count])
  | lshr =>
    simp only [eval?, raw?, unsignedOfBits sized]
    exact normalBits sized (by rw [bitsLshr narrow small, count])
  | ashr => exact normalBits sized (by rw [bitsAshr narrow small, count])

theorem onBitsNone {n : Nat} {op : IntOp} {x y : BitVec n} :
    op.onBits x y = none ↔ (Opcode.int op).divides = true ∧ y = 0 := by
  cases op <;> simp [onBits, Opcode.divides]

theorem leastOverMinusOne (sized : t.sized = true) :
    IntOp.sdiv.onBits (BitVec.intMin t.width) (-1) = some (BitVec.intMin t.width) ∧
      IntOp.srem.onBits (BitVec.intMin t.width) (-1) = some 0 := by
  cases t with
  | i8 | i16 | i32 | i64 => exact ⟨rfl, rfl⟩
  | _ => cases sized

end Bits

end IntOp

namespace IntCompare

def onBits {n : Nat} (c : IntCompare) (x y : BitVec n) : Bool :=
  match c with
  | .eq => x = y
  | .ne => x ≠ y
  | .slt => x.slt y
  | .sle => x.sle y
  | .sgt => y.slt x
  | .sge => y.sle x
  | .ult => x.ult y
  | .ule => x.ule y
  | .ugt => y.ult x
  | .uge => y.ule x

open Word

theorem evalBits {t : Ty} (sized : t.sized = true) (c : IntCompare) (x y : BitVec t.width) :
    c.eval t (ofBits x) (ofBits y) = c.onBits x y := by
  have narrow := (Ty.sizedWidth sized).2
  have same : ofBits x = ofBits y ↔ x = y := ⟨ofBitsInjective narrow, congrArg ofBits⟩
  have below (x y : BitVec t.width) : (ofBits x).toInt64 < (ofBits y).toInt64 ↔ x.toInt < y.toInt := by
    rw [Int64.lt_iff_toInt_lt, numberOfBits narrow, numberOfBits narrow]
  have upTo (x y : BitVec t.width) : (ofBits x).toInt64 ≤ (ofBits y).toInt64 ↔ x.toInt ≤ y.toInt := by
    rw [Int64.le_iff_toInt_le, numberOfBits narrow, numberOfBits narrow]
  have less (x y : BitVec t.width) : zeroBits x < zeroBits y ↔ x.toNat < y.toNat := by
    rw [UInt64.lt_iff_toNat_lt, zeroBitsNat narrow, zeroBitsNat narrow]
  have most (x y : BitVec t.width) : zeroBits x ≤ zeroBits y ↔ x.toNat ≤ y.toNat := by
    rw [UInt64.le_iff_toNat_le, zeroBitsNat narrow, zeroBitsNat narrow]
  cases c with
  | eq => exact decide_eq_decide.mpr same
  | ne => exact decide_eq_decide.mpr (not_congr same)
  | slt => exact decide_eq_decide.mpr (below x y)
  | sle => exact decide_eq_decide.mpr (upTo x y)
  | sgt => exact decide_eq_decide.mpr (below y x)
  | sge => exact decide_eq_decide.mpr (upTo y x)
  | ult => simpa [eval, onBits, unsignedOfBits sized, BitVec.ult] using less x y
  | ule => simpa [eval, onBits, unsignedOfBits sized, BitVec.ule] using most x y
  | ugt => simpa [eval, onBits, unsignedOfBits sized, BitVec.ult] using less y x
  | uge => simpa [eval, onBits, unsignedOfBits sized, BitVec.ule] using most y x

end IntCompare

/-- Numbers of a width as numbers of another: wider ones by sign or by zeros, narrower ones by
their low bits. -/
def Opcode.resize (op : Opcode) {n : Nat} (k : Nat) (x : BitVec n) : Option (BitVec k) :=
  match op with
  | .sext => if n < k then some (x.signExtend k) else none
  | .zext => if n < k then some (x.setWidth k) else none
  | .trunc => if k < n then some (x.setWidth k) else none
  | _ => none

structure Frame.Holds (f : Frame) (id : TempId) (t : Ty) (x : BitVec t.width) : Prop where
  type : tempType f.fn id = t
  word : f.regs[id.toNat]? = some (Word.ofBits x)

def State.wrote (s : State) (id : TempId) (w : Word) (after : List Instr) : State :=
  { s with frame := { s.frame.put id w with rest := after } }

namespace Machine

open Word

variable {m : Machine} {s : State} {i : Instr} {after : List Instr} {t : Ty} {a b : TempId}
  {x y : BitVec t.width} {r : Temp}

theorem readBoth (operands : i.operands = [.temp a, .temp b]) (binary : i.op.minOperands = 2)
    (first : s.frame.Holds a t x) (second : s.frame.Holds b t y) :
    s.frame.values? m.domain (i.operands.take i.op.minOperands) = some [ofBits x, ofBits y] := by
  simp [binary, operands, Frame.values?, Frame.value?, first.word, second.word]

theorem stepInt (sized : t.sized = true) {op : IntOp} (is : i.op = .int op) (type : i.type = t)
    (operands : i.operands = [.temp a, .temp b]) (first : s.frame.Holds a t x)
    (second : s.frame.Holds b t y) (results : i.results = [r])
    (room : r.id.toNat < s.frame.regs.size) :
    m.step s i after =
      match op.onBits x y with
      | some z => .ok (.running (s.wrote r.id (ofBits z) after))
      | none => .error (.trap s.frame.fn.name (some i) .divisionByZero) := by
  have computes : i.op.computes = true := by rw [is]; rfl
  have read := readBoth (m := m) operands (by rw [is]; rfl) first second
  have made : m.domain.compute s.frame.typeOf? i [ofBits x, ofBits y] =
      match op.onBits x y with
      | some z => .ok (ofBits z)
      | none => .error .divisionByZero := by
    simp only [FloatDomain.compute, is, type, IntOp.evalBits sized]
    cases op.onBits x y <;> rfl
  cases result : op.onBits x y with
  | some z =>
    rw [result] at made
    exact stepComputes computes read made results room
  | none =>
    rw [result] at made
    exact stepComputesFails computes read made

theorem stepCompare (sized : t.sized = true) {c : IntCompare} (is : i.op = .icmp c)
    (operands : i.operands = [.temp a, .temp b]) (first : s.frame.Holds a t x)
    (second : s.frame.Holds b t y) (results : i.results = [r])
    (room : r.id.toNat < s.frame.regs.size) :
    m.step s i after = .ok (.running (s.wrote r.id (ofBool (c.onBits x y)) after)) := by
  have computes : i.op.computes = true := by rw [is]; rfl
  have read := readBoth (m := m) operands (by rw [is]; rfl) first second
  have made : m.domain.compute s.frame.typeOf? i [ofBits x, ofBits y] =
      .ok (ofBool (c.onBits x y)) := by
    simp only [FloatDomain.compute, is, operands, comparedType, Frame.typeOf?, first.type,
      Option.getD_some, IntCompare.evalBits sized]
  exact stepComputes computes read made results room

theorem stepResize {z : BitVec i.type.width} (sized : t.sized = true)
    (result : i.type.sized = true) (resizes : i.op.resize i.type.width x = some z)
    (operands : i.operands = [.temp a]) (first : s.frame.Holds a t x) (results : i.results = [r])
    (room : r.id.toNat < s.frame.regs.size) :
    m.step s i after = .ok (.running (s.wrote r.id (ofBits z) after)) := by
  have narrow := (Ty.sizedWidth sized).2
  have fits := (Ty.sizedWidth result).2
  have normal (w : Word) (same : bits i.type.width w = z) : Word.normalize i.type w = ofBits z := by
    rw [normalizeBits result, same]
  have type : s.frame.typeOf? (.temp a) = some t := congrArg some first.type
  have computes : i.op.computes = true ∧ i.op.minOperands = 1 ∧
      m.domain.compute s.frame.typeOf? i [ofBits x] = .ok (ofBits z) := by
    unfold Opcode.resize at resizes
    split at resizes
    · rename_i is
      obtain ⟨wider, made⟩ := Option.ite_none_right_eq_some.mp resizes
      cases made
      refine ⟨by rw [is]; rfl, by rw [is]; rfl, ?_⟩
      have truth : t ≠ .i1 := fun same => by simp [same, Ty.sized] at sized
      simp only [FloatDomain.compute, is, operands, type, Option.getD_some, signExtendFrom,
        if_neg truth]
      exact congrArg Except.ok (normal _ (bitsSext (Nat.le_of_lt wider) fits x))
    · rename_i is
      obtain ⟨wider, made⟩ := Option.ite_none_right_eq_some.mp resizes
      cases made
      refine ⟨by rw [is]; rfl, by rw [is]; rfl, ?_⟩
      simp only [FloatDomain.compute, is, operands, type, Option.getD_some, unsignedOfBits sized]
      exact congrArg Except.ok (normal _ (bitsZext fits x))
    · rename_i is
      obtain ⟨narrower, made⟩ := Option.ite_none_right_eq_some.mp resizes
      cases made
      refine ⟨by rw [is]; rfl, by rw [is]; rfl, ?_⟩
      simp only [FloatDomain.compute, is]
      exact congrArg Except.ok (normal _ (bitsTrunc (Nat.le_of_lt narrower) narrow x))
    · cases resizes
  obtain ⟨computes, unary, made⟩ := computes
  have read : s.frame.values? m.domain (i.operands.take i.op.minOperands) = some [ofBits x] := by
    simp [unary, operands, Frame.values?, Frame.value?, first.word]
  exact stepComputes computes read made results room

/-- Integer instructions on temporaries do what operations on bit vectors do. An operation writes
the number that it makes, unless it divides by zero, which is the only reason to trap; the least
number over -1 is itself, without a rest. A comparison writes 0 or 1, and a number of another
width is its extension or what is left of it. -/
theorem integerStep (m : Machine) (s : State) (i : Instr) (after : List Instr) (t : Ty)
    (sized : t.sized = true) (a : TempId) (x : BitVec t.width) (first : s.frame.Holds a t x) (r : Temp)
    (results : i.results = [r]) (room : r.id.toNat < s.frame.regs.size) :
    (∀ op b y, i.op = .int op → i.type = t → i.operands = [.temp a, .temp b] →
      s.frame.Holds b t y →
      m.step s i after =
        (match op.onBits x y with
        | some z => .ok (.running (s.wrote r.id (ofBits z) after))
        | none => .error (.trap s.frame.fn.name (some i) .divisionByZero)) ∧
      (op.onBits x y = none ↔ (Opcode.int op).divides = true ∧ y = 0)) ∧
    IntOp.sdiv.onBits (BitVec.intMin t.width) (-1) = some (BitVec.intMin t.width) ∧
    IntOp.srem.onBits (BitVec.intMin t.width) (-1) = some 0 ∧
    (∀ c b y, i.op = .icmp c → i.operands = [.temp a, .temp b] → s.frame.Holds b t y →
      m.step s i after = .ok (.running (s.wrote r.id (ofBool (c.onBits x y)) after))) ∧
    ∀ z, i.type.sized = true → i.op.resize i.type.width x = some z → i.operands = [.temp a] →
      m.step s i after = .ok (.running (s.wrote r.id (ofBits z) after)) := by
  obtain ⟨quotient, rest⟩ := IntOp.leastOverMinusOne sized
  refine ⟨fun op b y is type operands second => ⟨?_, IntOp.onBitsNone⟩, quotient, rest, ?_, ?_⟩
  · exact stepInt sized is type operands first second results room
  · exact fun c b y is operands second => stepCompare sized is operands first second results room
  · exact fun z result resizes operands => stepResize sized result resizes operands first results room

section Narrow

def byteQuotient : Instr :=
  { Instr.blank (.int .sdiv) with
    type := .i8, results := [⟨2, .i8⟩], operands := [.temp 0, .temp 1] }

def byteWidened : Instr :=
  { Instr.blank .zext with type := .i32, results := [⟨3, .i32⟩], operands := [.temp 0] }

def byteCompared : Instr :=
  { Instr.blank (.icmp .ult) with
    type := .i1, results := [⟨4, .i1⟩], operands := [.temp 0, .temp 1] }

def narrowFunction : Function where
  name := "narrow"
  sig := .ofTypes [.i8, .i8] [.i8, .i32, .i1]
  blocks := [⟨"entry", [⟨0, .i8⟩, ⟨1, .i8⟩], [byteQuotient, byteWidened, byteCompared,
    { Instr.blank .ret with operands := [.temp 2, .temp 3, .temp 4] }]⟩]
  slots := []
  valueNames := []

def narrowState (divisor : BitVec 8) : State :=
  ⟨⟨narrowFunction, "entry", [], #[ofBits (-128#8), ofBits divisor, 0, 0, 0], 0⟩, [], .empty⟩

def narrowMachine : Machine := ⟨⟨[], [narrowFunction]⟩, none, .ieee⟩

theorem leastByteSteps :
    narrowMachine.step (narrowState (-1)) byteQuotient [] =
      .ok (.running ((narrowState (-1)).wrote 2 (ofBits (-128#8)) [])) ∧
    narrowMachine.step (narrowState 0) byteQuotient [] =
      .error (.trap "narrow" (some byteQuotient) .divisionByZero) ∧
    narrowMachine.step (narrowState (-1)) byteWidened [] =
      .ok (.running ((narrowState (-1)).wrote 3 128 [])) ∧
    narrowMachine.step (narrowState (-1)) byteCompared [] =
      .ok (.running ((narrowState (-1)).wrote 4 1 [])) := by
  have first (divisor : BitVec 8) : (narrowState divisor).frame.Holds 0 .i8 (-128) := ⟨rfl, rfl⟩
  have second (divisor : BitVec 8) : (narrowState divisor).frame.Holds 1 .i8 divisor := ⟨rfl, rfl⟩
  have divides (divisor : BitVec 8) :=
    have room : 2 < (narrowState divisor).frame.regs.size :=
      Nat.lt_add_of_pos_right (k := 3) (by decide)
    (integerStep narrowMachine _ byteQuotient [] .i8 rfl 0 _ (first divisor) _ rfl room).1 .sdiv 1
      divisor rfl rfl rfl (second divisor)
  refine ⟨(divides (-1)).1, (divides 0).1, ?_, ?_⟩
  · obtain ⟨-, -, -, -, resizes⟩ :=
      integerStep narrowMachine _ byteWidened [] .i8 rfl 0 _ (first (-1)) _ rfl (by decide)
    exact resizes 128 rfl rfl rfl
  · obtain ⟨-, -, -, compares, -⟩ :=
      integerStep narrowMachine _ byteCompared [] .i8 rfl 0 _ (first (-1)) _ rfl (by decide)
    exact compares .ult 1 (-1) rfl rfl (second (-1))

end Narrow

end Machine
end FixedIL
