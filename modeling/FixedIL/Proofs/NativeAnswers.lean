import FixedIL.Builtin.Catalog
import FixedIL.Convention.NativeCall
import FixedIL.Native.Probe
import Mathlib.Algebra.Group.Nat.Defs

/-!
What the routines of the catalog answer to integers. A routine writes its lanes as little-endian
bytes, and the lanes that a caller reads back are the ones that were written.
-/
namespace FixedIL

namespace Bytes

theorem toWordOfWord {n : Nat} (few : n ≤ 8) (w : UInt64) :
    (toWord (ofWord n w)).toNat = w.toNat % 2 ^ (8 * n) := by
  induction n generalizing w with
  | zero => simp [ofWord, toWord, Nat.mod_one]
  | succ n ih =>
    have rest : (toWord (ofWord n (w >>> 8))).toNat = w.toNat / 2 ^ 8 % 2 ^ (8 * n) := by
      rw [ih (by omega), UInt64.toNat_shiftRight, Nat.shiftRight_eq_div_pow]
      rfl
    have room : w.toNat / 2 ^ 8 % 2 ^ (8 * n) < 2 ^ 56 :=
      Nat.lt_of_lt_of_le (Nat.mod_lt _ (Nat.two_pow_pos _))
        (Nat.pow_le_pow_right (by decide) (by omega))
    have shifted : (toWord (ofWord n (w >>> 8)) <<< 8).toNat =
        (w.toNat / 2 ^ 8 % 2 ^ (8 * n)) <<< 8 := by
      rw [UInt64.toNat_shiftLeft, rest, Nat.shiftLeft_eq, Nat.shiftLeft_eq]
      exact Nat.mod_eq_of_lt ((Nat.mul_lt_mul_right (by decide)).mpr room)
    rw [ofWord, toWord, UInt64.toNat_or, shifted, UInt8.toNat_toUInt64, UInt64.toNat_toUInt8,
      Nat.or_comm, ← Nat.shiftLeft_add_eq_or_of_lt (Nat.mod_lt _ (by decide)), Nat.shiftLeft_eq,
      Nat.mul_add 8, Nat.add_comm, Nat.pow_add', Nat.mod_mul, Nat.mul_comm]

end Bytes

namespace NativeRoutine

theorem laneBack (lane : UInt32) :
    (Bytes.toWord (Bytes.ofWord 4 lane.toUInt64)).toUInt32 = lane := by
  apply UInt32.toNat_inj.mp
  have bound := lane.toNat_lt
  rw [UInt64.toNat_toUInt32, Bytes.toWordOfWord (by decide), UInt32.toNat_toUInt64]
  omega

theorem lanesBack (written : List UInt32) : lanes written.length (laneBytes written) = written := by
  induction written with
  | nil => rfl
  | cons lane written ih =>
    have bytes : laneBytes (lane :: written) =
        Bytes.ofWord 4 lane.toUInt64 ++ laneBytes written := rfl
    have length := Bytes.ofWordLength 4 lane.toUInt64
    rw [List.length_cons, lanes, bytes, List.take_left' length, List.drop_left' length, laneBack,
      ih]

end NativeRoutine

namespace Builtin

def answer? (symbol : String) (lanes : Nat) (args : List Int32) : Option (List Int32) :=
  (catalogRows.find? fun row => row.symbol = symbol).map fun row =>
    (NativeRoutine.lanes lanes (row.routine (args.map fun v => (NativeCall.Arg.int v).cell))).map
      UInt32.toInt32

theorem intsLanes {f : (Nat → Int32) → List Int32} {n : Nat} (args : List Int32)
    (length : (f fun i => args.getD i 0).length = n) :
    NativeRoutine.lanes n
      (NativeRoutine.ofInts f (args.map fun v => (NativeCall.Arg.int v).cell)) =
      (f fun i => args.getD i 0).map Int32.toUInt32 := by
  have read : (fun i => (NativeRoutine.lane (args.map fun v =>
      (NativeCall.Arg.int v).cell) i).toInt32) = fun i => args.getD i 0 := by
    funext i
    rw [NativeRoutine.lane, List.getD_eq_getElem?_getD, List.getElem?_map,
      List.getD_eq_getElem?_getD]
    cases args[i]? with
    | none => rfl
    | some v =>
      exact congrArg UInt32.toInt32 (UInt32.toUInt32_toUInt64 v.toUInt32)
  have back := NativeRoutine.lanesBack ((f fun i => args.getD i 0).map Int32.toUInt32)
  rw [List.length_map, length] at back
  rw [NativeRoutine.ofInts, NativeRoutine.ofWords, read, back]

theorem intsAnswer {f : (Nat → Int32) → List Int32} {n : Nat} (args : List Int32)
    (length : (f fun i => args.getD i 0).length = n) :
    (NativeRoutine.lanes n
      (NativeRoutine.ofInts f (args.map fun v => (NativeCall.Arg.int v).cell))).map UInt32.toInt32 =
      f fun i => args.getD i 0 := by
  rw [intsLanes args length, List.map_map]
  exact List.map_id _

end Builtin

namespace NativeCall

variable {t : Target} {plan : ReturnPlan}

theorem invokeInts {f : (Nat → Int32) → List Int32} (args : List Int32) (host : t.isHost = true)
    (expressed : plan.addressInRegister = false) (few : args.length ≤ maxArgs)
    (some : plan.types ≠ []) (length : (f fun i => args.getD i 0).length = plan.types.length) :
    invoke (.ofInts f) plan t (args.map .int) =
      .ok ((f fun i => args.getD i 0).map Int32.toUInt32) := by
  have alike : uniform (args.map .int) = true := by
    cases args with
    | nil => rfl
    | cons v rest => simp [uniform, Arg.isFloat]
  simp only [invoke, host, expressed, alike, List.isEmpty_eq_false_iff.mpr some, List.length_map,
    Nat.not_lt.mpr few, Bool.not_true, Bool.false_eq_true, if_false]
  rw [← Builtin.intsLanes args length, List.map_map]
  rfl

theorem rangeArgs (args : List Int32) :
    (List.range args.length).map (fun i => args.getD i 0) = args := by
  refine List.ext_getElem (by simp) fun i inside inside' => ?_
  simp [inside']

theorem fiveIntsInvoked (args : List Int32) (host : t.isHost = true)
    (expressed : plan.addressInRegister = false) (few : args.length ≤ maxArgs)
    (five : plan.types.length = 5) :
    invoke (Native.Probe.fiveInts args.length) plan t (args.map .int) =
      .ok ((List.range 5).map fun k =>
        (args.foldl (fun s v => s + v) 0 + 11 * k.toInt32).toUInt32) := by
  have some : plan.types ≠ [] := fun none => by rw [none] at five; cases five
  have sum : (List.range args.length).foldl (fun s i => s + args.getD i 0) 0 =
      args.foldl (fun s v => s + v) 0 := by
    rw [← List.foldl_map (f := fun i => args.getD i 0) (g := fun s v => s + v), rangeArgs]
  rw [Native.Probe.fiveInts, invokeInts args host expressed few some (by rw [five]; rfl)]
  simp only [sum, List.map_map]
  rfl

end NativeCall
end FixedIL
