import FixedIL.Proofs.ReturnPlans

/-!
Plans that a machine can carry out. Lanes of one type lie in the return registers of their class,
one behind the other as in memory or one to a register, and go through memory exactly if they are
more than the registers take. A single value that is wider than a register begins in the first
register and ends in the last one.
-/
namespace FixedIL

namespace Target

def spreads (t : Target) (type : Ty) : Bool :=
  type.isFloat && t.hasFloatReturnRegs && t.maxHfaMembers != 0

def resultClass (t : Target) (type : Ty) : RegisterClass :=
  if type.isFloat && t.hasFloatReturnRegs then .float else .integer

def resultBytes (t : Target) (type : Ty) : Nat := t.registerBytes (t.resultClass type)

def HasRoom (t : Target) (type : Ty) (n : Nat) : Prop :=
  if t.spreads type then n ≤ t.maxHfaMembers else n * type.size ≤ t.maxRegisterReturnBytes

instance (t : Target) (type : Ty) (n : Nat) : Decidable (t.HasRoom type n) := by
  unfold HasRoom; infer_instance

def Splits (t : Target) (type : Ty) : Prop := t.resultBytes type < type.size

instance (t : Target) (type : Ty) : Decidable (t.Splits type) := by
  unfold Splits; infer_instance

structure Suits (t : Target) (type : Ty) : Prop where
  single : t.HasRoom type 1
  positive : 0 < type.size
  spread : t.spreads type = true →
    t.resultClass type = .float ∧ ¬ t.Splits type ∧ t.maxHfaMembers ≤ t.floatReturnRegs.length
  budget : t.maxRegisterReturnBytes ≤
    (t.returnRegs (t.resultClass type)).length * t.resultBytes type
  whole : ¬ t.Splits type → type.size ∣ t.resultBytes type
  alone : t.Splits type → t.maxRegisterReturnBytes < 2 * type.size ∧
    type.size = (t.returnRegs (t.resultClass type)).length * t.resultBytes type

theorem allSuit {t : Target} (target : t ∈ all) {type : Ty}
    (number : type.isInteger ∨ type.isFloat) : t.Suits type := by
  simp only [all, List.mem_cons, List.not_mem_nil, or_false] at target
  rcases target with rfl | rfl | rfl <;> cases type <;>
    first
    | exact absurd number (by decide)
    | exact ⟨by decide, by decide, by decide, by decide, by decide, by decide⟩

theorem splitsIff {t : Target} (target : t ∈ all) {type : Ty}
    (number : type.isInteger ∨ type.isFloat) :
    t.Splits type ↔ t = .riscv32Ilp32 ∧ (type = .i64 ∨ type = .f64) := by
  simp only [all, List.mem_cons, List.not_mem_nil, or_false] at target
  rcases target with rfl | rfl | rfl <;> cases type <;>
    first
    | exact absurd number (by decide)
    | decide

end Target

namespace ReturnLocation

def start (l : ReturnLocation) (t : Target) : Nat := l.index * t.registerBytes l.register + l.offset

end ReturnLocation

namespace ReturnPlan

variable {t : Target} {type : Ty} {n : Nat}

def laneAt (t : Target) (type : Ty) (i : Nat) : ReturnLocation :=
  if t.spreads type then ⟨.float, i, 0⟩
  else ⟨t.resultClass type, i * type.size / t.resultBytes type, i * type.size % t.resultBytes type⟩

theorem laneSpread (spread : t.spreads type = true) (i : Nat) : laneAt t type i = ⟨.float, i, 0⟩ :=
  if_pos spread

theorem lanePacked (packs : ¬ t.spreads type = true) (i : Nat) :
    laneAt t type i = ⟨t.resultClass type, i * type.size / t.resultBytes type,
      i * type.size % t.resultBytes type⟩ :=
  if_neg packs

theorem manyLanesAt (t : Target) (type : Ty) (n : Nat) :
    manyLanes t type n = if t.HasRoom type n then .registers ((List.range n).map (laneAt t type))
      else .buffer t.sretInRegister := by
  by_cases spread : t.spreads type = true
  · rw [funext (laneSpread spread)]
    simp only [Target.HasRoom, spread, if_true]
    exact if_pos spread
  · rw [funext (lanePacked spread)]
    simp only [Target.HasRoom, spread, if_false, Bool.false_eq_true, Nat.mul_comm n]
    by_cases beyond : t.maxRegisterReturnBytes < type.size * n
    · rw [if_neg (Nat.not_le.mpr beyond)]
      exact (if_neg spread).trans (if_pos beyond)
    · rw [if_pos (Nat.not_lt.mp beyond)]
      exact (if_neg spread).trans (if_neg beyond)

theorem passingLanes (suits : t.Suits type) (n : Nat) :
    passingOf t type n = if t.HasRoom type n then .registers ((List.range n).map (laneAt t type))
      else .buffer t.sretInRegister := by
  unfold passingOf
  split
  · rename_i one
    subst one
    rw [if_pos suits.single]
    have first : laneAt t type 0 = ⟨t.resultClass type, 0, 0⟩ := by
      by_cases spread : t.spreads type = true
      · rw [laneSpread spread, (suits.spread spread).1]
      · simp [lanePacked spread]
    rw [List.range_one, List.map_singleton, first]
    rfl
  · exact manyLanesAt t type n

theorem laneRegister (suits : t.Suits type) (i : Nat) :
    (laneAt t type i).register = t.resultClass type := by
  by_cases spread : t.spreads type = true
  · rw [laneSpread spread, (suits.spread spread).1]
  · rw [lanePacked spread]

theorem laneStart (suits : t.Suits type) (i : Nat) :
    (laneAt t type i).start t =
      if t.spreads type then i * t.resultBytes type else i * type.size := by
  by_cases spread : t.spreads type = true
  · rw [if_pos spread, laneSpread spread, Target.resultBytes, (suits.spread spread).1]
    rfl
  · rw [if_neg spread, lanePacked spread]
    exact Nat.div_add_mod' _ _

theorem laneInside (suits : t.Suits type) (fits : ¬ t.Splits type) (i : Nat) :
    (laneAt t type i).offset + type.size ≤ t.resultBytes type := by
  by_cases spread : t.spreads type = true
  · rw [laneSpread spread, Nat.zero_add]
    exact Nat.not_lt.mp fits
  · rw [lanePacked spread]
    obtain ⟨k, width⟩ := suits.whole fits
    have positive := suits.positive
    have wide : 0 < k := Nat.pos_of_ne_zero fun zero => by
      rw [zero] at width
      exact fits (by rw [Target.Splits]; omega)
    -- The offset is a multiple of the size, so that one more of them is left in the register.
    calc i * type.size % t.resultBytes type + type.size
        = type.size * (i % k) + type.size := by rw [width, Nat.mul_comm i, Nat.mul_mod_mul_left]
      _ = type.size * (i % k + 1) := (Nat.mul_succ ..).symm
      _ ≤ type.size * k := Nat.mul_le_mul_left _ (Nat.mod_lt i wide)
      _ = t.resultBytes type := width.symm

theorem laneBefore (suits : t.Suits type) {i j : Nat} (before : i < j) :
    (laneAt t type i).start t + type.size ≤ (laneAt t type j).start t := by
  rw [laneStart suits, laneStart suits]
  split
  · rename_i spread
    have fits : type.size ≤ t.resultBytes type := Nat.not_lt.mp (suits.spread spread).2.1
    calc i * t.resultBytes type + type.size ≤ (i + 1) * t.resultBytes type := by
          rw [Nat.succ_mul]
          exact Nat.add_le_add_left fits _
      _ ≤ j * t.resultBytes type := Nat.mul_le_mul_right _ before
  · calc i * type.size + type.size = (i + 1) * type.size := (Nat.succ_mul ..).symm
      _ ≤ j * type.size := Nat.mul_le_mul_right _ before

theorem laneEnds (suits : t.Suits type) (room : t.HasRoom type n) {i : Nat} (inside : i < n) :
    (laneAt t type i).start t + type.size ≤
      (t.returnRegs (t.resultClass type)).length * t.resultBytes type := by
  have next := laneBefore suits (Nat.lt_succ_self i)
  refine Nat.le_trans next ?_
  rw [laneStart suits]
  unfold Target.HasRoom at room
  split at room
  · rename_i spread
    rw [if_pos spread, (suits.spread spread).1]
    exact Nat.mul_le_mul_right _
      (Nat.le_trans inside (Nat.le_trans room (suits.spread spread).2.2))
  · rename_i packs
    rw [if_neg packs]
    exact Nat.le_trans (Nat.mul_le_mul_right _ inside) (Nat.le_trans room suits.budget)

structure InRegisters (t : Target) (type : Ty) (n : Nat) (lanes : List ReturnLocation) : Prop where
  room : t.HasRoom type n
  count : lanes.length = n
  own : ∀ l ∈ lanes, l.register = t.resultClass type
  listed : ∀ l ∈ lanes, l.index < (t.returnRegs l.register).length
  ends : ∀ l ∈ lanes, l.start t + type.size ≤
    (t.returnRegs l.register).length * t.registerBytes l.register
  inside : ¬ t.Splits type → ∀ l ∈ lanes, l.offset + type.size ≤ t.registerBytes l.register
  apart : lanes.Pairwise fun l k => l.start t + type.size ≤ k.start t
  placed : ∀ (i : Nat) (l : ReturnLocation), lanes[i]? = some l →
    if t.spreads type then l.index = i ∧ l.offset = 0 else l.start t = i * type.size
  split : t.Splits type → lanes = [⟨t.resultClass type, 0, 0⟩] ∧
    type.size = (t.returnRegs (t.resultClass type)).length * t.resultBytes type

structure InBuffer (t : Target) (type : Ty) (n : Nat) (plan : ReturnPlan) : Prop where
  beyond : ¬ t.HasRoom type n
  size : plan.bufferSize = n * type.size
  small : plan.bufferSize < UInt32.size
  inside : ∀ i < n, plan.offset i + type.size ≤ plan.bufferSize

theorem splitAlone (suits : t.Suits type) (splits : t.Splits type) (some : 0 < n)
    (room : t.HasRoom type n) :
    (List.range n).map (laneAt t type) = [⟨t.resultClass type, 0, 0⟩] := by
  have packs : ¬ t.spreads type = true := fun spread => (suits.spread spread).2.1 splits
  rw [Target.HasRoom, if_neg packs] at room
  have few : n < 2 :=
    Nat.lt_of_mul_lt_mul_right (Nat.lt_of_le_of_lt room (suits.alone splits).1)
  have one : n = 1 := by omega
  rw [one, List.range_one, List.map_singleton, lanePacked packs]
  simp

theorem lanesInRegisters (suits : t.Suits type) (some : 0 < n) (room : t.HasRoom type n) :
    InRegisters t type n ((List.range n).map (laneAt t type)) where
  room := room
  count := by simp
  own l member := by
    obtain ⟨i, -, rfl⟩ := List.mem_map.mp member
    exact laneRegister suits i
  listed l member := by
    obtain ⟨i, inside, rfl⟩ := List.mem_map.mp member
    have ends := laneEnds suits room (List.mem_range.mp inside)
    rw [ReturnLocation.start, laneRegister suits] at ends
    rw [laneRegister suits]
    have positive := suits.positive
    refine Nat.lt_of_mul_lt_mul_right (a := t.resultBytes type) ?_
    rw [Target.resultBytes] at ends ⊢
    omega
  ends l member := by
    obtain ⟨i, inside, rfl⟩ := List.mem_map.mp member
    rw [laneRegister suits]
    exact laneEnds suits room (List.mem_range.mp inside)
  inside fits l member := by
    obtain ⟨i, -, rfl⟩ := List.mem_map.mp member
    rw [laneRegister suits]
    exact laneInside suits fits i
  apart := List.pairwise_map.mpr (List.pairwise_lt_range.imp (laneBefore suits))
  placed i l here := by
    rw [List.getElem?_map, Option.map_eq_some_iff] at here
    obtain ⟨j, place, rfl⟩ := here
    obtain ⟨_, same⟩ := List.getElem?_eq_some_iff.mp place
    rw [List.getElem_range] at same
    subst same
    split
    · rename_i spread
      rw [laneSpread spread]
      exact ⟨rfl, rfl⟩
    · rename_i packs
      rw [laneStart suits, if_neg packs]
  split splits := ⟨splitAlone suits splits some room, (suits.alone splits).2⟩

theorem lanesInBuffer {plan : ReturnPlan} (beyond : ¬ t.HasRoom type n)
    (small : n * type.size < UInt32.size) (buffered : plan.usesBuffer = true)
    (count : plan.types.length = n) (element : plan.elementSize = type.size) :
    InBuffer t type n plan := by
  have size : plan.bufferSize = n * type.size := by
    rw [bufferSize, if_pos buffered, count, element]
  refine ⟨beyond, size, size ▸ small, fun i inside => ?_⟩
  calc plan.offset i + type.size = (i + 1) * type.size := by rw [offset, element, Nat.succ_mul]
    _ ≤ n * type.size := Nat.mul_le_mul_right _ inside
    _ = plan.bufferSize := size.symm

/-- Plans for lanes of one type can be carried out on every target. Only a single value of 64 bits
on the target of 32 bits does not lie in one register: it fills the two that the target lists. -/
theorem plansFitRegisters (t : Target) (type : Ty) (n : Nat) (target : t ∈ Target.all)
    (number : type.isInteger ∨ type.isFloat) (some : 0 < n) (small : n * type.size < UInt32.size) :
    (t.Splits type ↔ t = .riscv32Ilp32 ∧ (type = .i64 ∨ type = .f64)) ∧
    ∃ plan, classify (List.replicate n type) t = .ok plan ∧ plan.elementSize = type.size ∧
      (plan.usesBuffer = false → InRegisters t type n plan.locations) ∧
      (plan.usesBuffer = true → InBuffer t type n plan) := by
  have suits := Target.allSuit target number
  have value : type ≠ .void := by
    rintro rfl
    exact absurd number (by decide)
  refine ⟨Target.splitsIff target number, _, classifyRepeated t some value, rfl, ?_⟩
  rw [passingLanes suits]
  by_cases room : t.HasRoom type n
  · rw [if_pos room]
    exact ⟨fun _ => lanesInRegisters suits some room, nofun⟩
  · rw [if_neg room]
    exact ⟨nofun, fun buffered => lanesInBuffer room small buffered List.length_replicate rfl⟩

/-- A plan has one location for a value, and on the target of 32 bits no location holds 64. -/
theorem wideValueSplits :
    classify (List.replicate 1 .i64) .riscv32Ilp32 =
      .ok ⟨[.i64], 8, .registers [⟨.integer, 0, 0⟩]⟩ ∧
    ∀ l : ReturnLocation,
      ¬ l.offset + Ty.i64.size ≤ Target.riscv32Ilp32.registerBytes l.register := by
  refine ⟨rfl, fun l inside => ?_⟩
  have narrow : Target.riscv32Ilp32.registerBytes l.register ≤ 4 := by
    cases l.register <;> decide
  have wide : Ty.i64.size = 8 := rfl
  omega

theorem lanesFitTargets :
    InRegisters .x86_64Sysv .i32 3 [⟨.integer, 0, 0⟩, ⟨.integer, 0, 4⟩, ⟨.integer, 1, 0⟩] ∧
    InBuffer .aarch64Aapcs64 .f32 5 ⟨List.replicate 5 .f32, 4, .buffer true⟩ ∧
    InRegisters .riscv32Ilp32 .f64 1 [⟨.integer, 0, 0⟩] := by
  obtain ⟨-, ints, packed, -, direct, -⟩ := plansFitRegisters .x86_64Sysv .i32 3
    (by decide) (by decide) (by decide) (by decide)
  obtain ⟨-, floats, spread, -, -, through⟩ := plansFitRegisters .aarch64Aapcs64 .f32 5
    (by decide) (by decide) (by decide) (by decide)
  obtain ⟨-, double, alone, -, split, -⟩ := plansFitRegisters .riscv32Ilp32 .f64 1
    (by decide) (by decide) (by decide) (by decide)
  cases packed
  cases spread
  cases alone
  exact ⟨direct rfl, through rfl, split rfl⟩

end ReturnPlan
end FixedIL
