import FixedIL.Builtin.Prototype
import FixedIL.Convention.ReturnPlan

/-!
Plans for results of one type. There is a plan for any number of them, and so for the lanes of
every builtin; the signature that goes with it differs from the declared one if a buffer is used.
-/
namespace FixedIL

namespace ReturnPlan

variable {type : Ty} {n : Nat}

theorem classifyRepeated (t : Target) (some : 0 < n) (value : type ≠ .void) :
    classify (List.replicate n type) t =
      .ok ⟨List.replicate n type, type.size, passingOf t type n⟩ := by
  obtain ⟨k, rfl⟩ := Nat.exists_eq_add_one.mpr some
  have alike : (List.replicate k type).find? (fun s => s ≠ type) = none := by simp
  rw [List.replicate_succ, classify, alike]
  simp only [if_neg value, List.length_cons, List.length_replicate]

theorem bufferParts {t : Target} {plan : ReturnPlan} (value : type ≠ .void)
    (classified : classify (List.replicate n type) t = .ok plan)
    (buffer : plan.usesBuffer = true) :
    plan.types = List.replicate n type ∧ plan.elementSize = type.size := by
  cases n with
  | zero =>
    cases classified
    cases buffer
  | succ n =>
    obtain rfl := Except.ok.inj ((classifyRepeated t n.succ_pos value).symm.trans classified)
    exact ⟨rfl, rfl⟩

theorem legalizeClassified {sig : Signature} {t : Target} {plan : ReturnPlan}
    (classified : classify sig.returnTypes t = .ok plan) :
    legalize sig t =
      .ok (if plan.usesBuffer then ⟨⟨.ptr, .structReturn⟩ :: sig.params, []⟩ else sig) := by
  simp only [legalize, classified, bind, Except.bind]
  split <;> rfl

theorem sizeMost (type : Ty) : type.size ≤ 8 := by
  cases type <;> decide

theorem registersHold {t : Target} {registers : List ReturnLocation}
    (direct : passingOf t type n = .registers registers) :
    n * type.size ≤ max (8 * max 1 t.maxHfaMembers) t.maxRegisterReturnBytes := by
  have each (k : Nat) (few : n ≤ k) : n * type.size ≤ 8 * k := by
    rw [Nat.mul_comm 8]
    exact Nat.mul_le_mul few (sizeMost type)
  unfold passingOf at direct
  split at direct
  · rename_i one
    exact Nat.le_trans (each _ (by omega)) (Nat.le_max_left _ _)
  · unfold manyLanes at direct
    simp only at direct
    split at direct
    · split at direct
      · exact Nat.le_trans (each _ (by omega)) (Nat.le_max_left _ _)
      · cases direct
    · split at direct
      · cases direct
      · rw [Nat.mul_comm]
        omega

end ReturnPlan

namespace Builtin

theorem laneValue (v : Variant) (t : ShaderTy) : laneTy v t ≠ .void := by
  cases t <;> cases v <;> decide

theorem flattenReturns (p : Prototype) (v : Variant) :
    (p.flatten v).returnTypes = List.replicate p.returns.lanes (laneTy v p.returns) := by
  simp [Prototype.flatten, Signature.ofTypes, Signature.returnTypes, lanesOf]

theorem flattenVisible (p : Prototype) (v : Variant) :
    (p.flatten v).structReturnIndex? = none := by
  simp [Prototype.flatten, Signature.ofTypes, Signature.structReturnIndex?,
    List.findIdx?_eq_none_iff]

theorem flattenClassified (p : Prototype) (v : Variant) (t : Target) :
    ∃ plan sig, ReturnPlan.classify (p.flatten v).returnTypes t = .ok plan ∧
      ReturnPlan.legalize (p.flatten v) t = .ok sig := by
  obtain ⟨plan, classified⟩ :
      ∃ plan, ReturnPlan.classify (p.flatten v).returnTypes t = .ok plan := by
    rw [flattenReturns]
    cases p.returns.lanes with
    | zero => exact ⟨_, rfl⟩
    | succ n => exact ⟨_, ReturnPlan.classifyRepeated t n.succ_pos (laneValue v p.returns)⟩
  exact ⟨plan, _, classified, ReturnPlan.legalizeClassified classified⟩

end Builtin

end FixedIL
