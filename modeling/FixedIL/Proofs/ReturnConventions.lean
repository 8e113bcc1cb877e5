import FixedIL.Native.Color
import FixedIL.Proofs.LaneCalls

/-!
Caller and callee agree on how several results of one type come back. A call that is written by the
plan of a signature fits the signature that the plan makes of it, and by either convention a run
finds the lanes that the callee wrote.
-/
namespace FixedIL
namespace Machine

open Emit

variable {m : Machine} {s : State} {after : List Instr} {loc : Loc}

structure Answers (m : Machine) (symbol : String) (sig legal : Signature) (words : List Word)
    (type : Ty) (lanes : List (List UInt8)) : Prop where
  routine : ∃ routine, m.Binds symbol legal routine ∧
    routine (cells m.domain sig.params words) = lanes.flatten
  long : ∀ lane ∈ lanes, lane.length = type.size

structure Meets (m : Machine) (s : State) (code after : List Instr) (slots : List FrameSlot) :
    Prop where
  reached : ∃ name inputs start steps, m.enter name inputs = .ok start ∧ m.Reaches steps start s
  rest : s.frame.rest = code ++ after
  slots : slots <+: s.frame.fn.slots
  addressed : s.memory.buffers.length < UInt32.size

def Delivers (m : Machine) (s : State) (code after : List Instr) (bound : TempId)
    (results : List TempId) (words : List Word) : Prop :=
  ∃ s', m.Reaches code.length s s' ∧ s'.frame.rest = after ∧
    s'.frame.values? m.domain (results.map .temp) = some words ∧
    ∀ id, id.toNat < bound.toNat → id ∉ results →
      s'.frame.regs[id.toNat]? = s.frame.regs[id.toNat]?

section Conventions

variable {callee : String} {sig : Signature} {type : Ty} {args : List Value} {ids : List TempId}
  {e : Emission} {plan : ReturnPlan} {words : List Word} {lanes : List (List UInt8)}
  {code : List Instr} {slots : List FrameSlot} {results : List TempId} {bound : TempId}

theorem Meets.linked (meets : m.Meets s code after slots) : s.Linked m.program := by
  obtain ⟨name, inputs, start, steps, begins, path⟩ := meets.reached
  exact linkedReaches (startLinked begins) path

theorem Meets.housed (meets : m.Meets s code after slots) : s.Housed := by
  obtain ⟨name, inputs, start, steps, begins, path⟩ := meets.reached
  exact housedReaches begins path

theorem Meets.registers (meets : m.Meets s code after slots)
    (room : ∀ id ∈ definedIds code, id.toNat + 1 < UInt32.size) :
    ∀ id ∈ definedIds code, id.toNat < s.frame.regs.size := by
  have runs := meets.linked.frame
  rw [meets.rest] at runs
  intro id defined
  obtain ⟨t, written, rfl⟩ := List.mem_map.mp defined
  obtain ⟨i, member, result⟩ := List.mem_flatMap.mp written
  rw [runs.regs]
  exact Function.tempBelowNext (runs.declared (List.mem_append_left _ member) t result)
    (room t.id defined)

theorem deliversPuts {f : Frame} {memory : Memory} (once : results.Nodup)
    (inside : ∀ id ∈ results, id.toNat < f.regs.size) (count : results.length = words.length)
    (kept : ∀ id : TempId, id.toNat < bound.toNat → f.regs[id.toNat]? = s.frame.regs[id.toNat]?)
    (path : m.Reaches code.length s { s with
      frame := { f.puts results words with rest := after }, memory := memory }) :
    m.Delivers s code after bound results words := by
  refine ⟨_, path, rfl, f.putsHeld once inside count, fun id below other => ?_⟩
  exact (Frame.putsOther f other words).trans (kept id below)

theorem directDelivers (ieee : m.domain = .ieee) (visible : sig.structReturnIndex? = none)
    (returns : sig.returnTypes = List.replicate lanes.length type)
    (answers : m.Answers callee sig sig words type lanes)
    (values : s.frame.values? m.domain args = some words) (once : results.Nodup)
    (count : results.length = lanes.length) (room : ∀ id ∈ results, id.toNat + 1 < UInt32.size)
    (meets : m.Meets s [callInstr callee (results.map (⟨·, type⟩)) args loc] after slots) :
    m.Delivers s [callInstr callee (results.map (⟨·, type⟩)) args loc] after bound results
      (lanes.map (m.domain.load type)) := by
  obtain ⟨routine, binds, writes⟩ := answers.routine
  have inside := meets.registers (by rw [directDefines]; exact room)
  rw [directDefines] at inside
  have path := directCall ieee binds visible returns values writes answers.long count inside
    meets.rest
  exact deliversPuts once inside (count.trans (List.length_map _).symm) (fun _ _ => rfl) path

theorem bufferDelivers {slot : FrameSlot} (ieee : m.domain = .ieee) (value : type ≠ .void)
    (visible : sig.structReturnIndex? = none)
    (answers : m.Answers callee sig ⟨⟨.ptr, .structReturn⟩ :: sig.params, []⟩ words type lanes)
    (values : s.frame.values? m.domain args = some words) (unread : .temp bound ∉ args)
    (size : slot.size.toNat = lanes.length * type.size) (parts : plan.elementSize = type.size)
    (once : (bound :: results).Nodup) (count : results.length = lanes.length)
    (room : ∀ id ∈ bound :: results, id.toNat + 1 < UInt32.size)
    (lines : code = computing .stackaddr .ptr [.int (Int64.ofNat slots.length), .int 0] bound loc ::
      callInstr callee [] (.temp bound :: args) loc ::
      loadInstrs plan type (.temp bound) 0 results loc)
    (meets : m.Meets s code after (slots ++ [slot])) :
    m.Delivers s code after bound results (lanes.map (m.domain.load type)) := by
  obtain ⟨routine, binds, writes⟩ := answers.routine
  have ⟨other, once⟩ := List.nodup_cons.mp once
  have defines : definedIds code = bound :: results := by rw [lines, bufferDefines]
  have inside := meets.registers (by rw [defines]; exact room)
  rw [defines] at inside
  have here : s.frame.fn.slots[slots.length]? = some slot := by
    obtain ⟨further, all⟩ := meets.slots
    rw [← all]
    simp
  have rest := meets.rest
  rw [lines] at rest
  obtain ⟨address, memory, -, path⟩ := bufferCall ieee value binds visible meets.housed
    meets.addressed here size parts values writes answers.long count inside other unread rest
  have steps : code.length = results.length + 2 := by
    rw [lines]
    simp [loadInstrs]
  rw [← steps] at path
  have kept (id : TempId) (below : id.toNat < bound.toNat) :=
    Frame.putOther s.frame (fun same : id = bound => Nat.lt_irrefl _ (same ▸ below)) address
  exact deliversPuts once (Frame.putInside inside) (count.trans (List.length_map _).symm) kept path

/-- A call of `callee` by the plan fits the signature that the callee is declared with, and gives
the lanes that its routine writes, wherever a run meets it. -/
structure CallAgrees (plan : ReturnPlan) (sig legal : Signature) (type : Ty) (n : Nat)
    (e : Emission) (callee : String) (args : List Value) (ids results : List TempId)
    (code : List Instr) (slots : List FrameSlot) : Prop where
  adds : Adding (callByPlan callee plan args ids) e results code slots
  numbers : Numbers e.nextTemp ids results n
  calls : CallsOnce code callee legal
  buffered : plan.usesBuffer = true → Buffered e callee plan type args results code slots
  delivers : ∀ (m : Machine) (s : State) (after : List Instr) (words : List Word)
    (lanes : List (List UInt8)), m.domain = .ieee → m.Meets s code after (e.slots ++ slots) →
    .temp e.nextTemp ∉ args → s.frame.values? m.domain args = some words →
    m.Answers callee sig legal words type lanes → lanes.length = n →
    m.Delivers s code after e.nextTemp results (lanes.map (m.domain.load type))

section Plans

variable {n : Nat} (returns : sig.returnTypes = List.replicate n type)
  (visible : sig.structReturnIndex? = none) (types : plan.types = List.replicate n type)
  (operands : args.length = sig.params.length) (once : ids.Nodup)
  (reserved : ∀ id ∈ ids, id.toNat < e.nextTemp.toNat)
  (room : e.nextTemp.toNat + (n - ids.length) + 1 < UInt32.size)

include returns visible types operands once reserved room

theorem directAgrees (direct : plan.usesBuffer = false) :
    ∃ results code slots, CallAgrees plan sig sig type n e callee args ids results code slots := by
  have numbers := resultNumbers (Nat.le_refl _) (Nat.lt_of_succ_lt room) once reserved
  have count : sig.returns.length = n := by
    rw [← List.length_map (f := Slot.type)]
    exact (congrArg List.length returns).trans List.length_replicate
  have results : (resultIds e.nextTemp.toNat n ids).length = sig.returns.length :=
    resultIdsCount.trans count.symm
  refine ⟨_, _, _, directAdds types reserved callee args direct (Nat.lt_of_succ_lt room), numbers,
    callsOnceDirect operands results, fun buffer => ?_,
    fun m s after words lanes ieee meets _ values answers lanesCount => ?_⟩
  · rw [direct] at buffer
    cases buffer
  · subst lanesCount
    refine directDelivers ieee visible returns answers values numbers.once numbers.count
      (fun id member => ?_) meets
    rcases memResultIds (Nat.lt_of_succ_lt room) member with given | ⟨-, below⟩
    · have old := reserved id (List.mem_of_mem_take given)
      omega
    · omega

theorem bufferAgrees (value : type ≠ .void) (buffer : plan.usesBuffer = true)
    (parts : plan.elementSize = type.size) (small : n * type.size < UInt32.size) :
    ∃ results code slots, CallAgrees plan sig ⟨⟨.ptr, .structReturn⟩ :: sig.params, []⟩ type n e
      callee args ids results code slots := by
  -- The buffer takes the next id, and fresh results begin behind it.
  have roomBehind : e.nextTemp.toNat + 1 + (n - ids.length) < UInt32.size := by omega
  have numbers := resultNumbers (Nat.le_succ _) roomBehind once reserved
  have size : plan.bufferSize.toUInt32.toNat = n * type.size := by
    rw [ReturnPlan.bufferSize, if_pos buffer, types, List.length_replicate, parts]
    exact UInt32.toNat_ofNat_of_lt' small
  refine ⟨_, _, _, bufferAdds types reserved callee args buffer room, numbers,
    callsOnceBuffer operands, fun _ => ⟨⟨_, rfl, ?_⟩, ⟨_, rfl⟩, ?_, ?_⟩,
    fun m s after words lanes ieee meets unread values answers lanesCount => ?_⟩
  · rw [resultIdsCount]
    exact size
  · rw [resultIdsCount]
    exact fun k inside => partInside parts inside
  · exact fun j k before => partsApart parts before
  · subst lanesCount
    have behind : ∀ id ∈ resultIds (e.nextTemp.toNat + 1) lanes.length ids,
        id ≠ e.nextTemp ∧ id.toNat + 1 < UInt32.size := by
      intro id member
      have apart (other : id.toNat ≠ e.nextTemp.toNat) : id ≠ e.nextTemp :=
        fun same => other (congrArg UInt32.toNat same)
      rcases memResultIds roomBehind member with given | ⟨above, below⟩
      · have old := reserved id (List.mem_of_mem_take given)
        exact ⟨apart (Nat.ne_of_lt old), by omega⟩
      · exact ⟨apart (by omega), by omega⟩
    have new : e.nextTemp ∉ resultIds (e.nextTemp.toNat + 1) lanes.length ids :=
      fun again => (behind _ again).1 rfl
    refine bufferDelivers ieee value visible answers values unread size parts
      (List.nodup_cons.mpr ⟨new, numbers.once⟩) numbers.count ?_ rfl meets
    exact List.forall_mem_cons.mpr ⟨by omega, fun id member => (behind id member).2⟩

end Plans

theorem targetsHold : ∀ t ∈ Target.all,
    max (8 * max 1 t.maxHfaMembers) t.maxRegisterReturnBytes ≤ resultBytes := by
  decide

/-- Several results of one type come back alike by either convention. There is a plan for them on
every target, the signature that goes with it is the one that calls by the plan are written for,
and a run gives the lanes that the callee wrote, in the order in which it wrote them. -/
theorem conventionsAgree (t : Target) (sig : Signature) (type : Ty) (n : Nat) (positive : 0 < n)
    (value : type ≠ .void) (returns : sig.returnTypes = List.replicate n type)
    (visible : sig.structReturnIndex? = none) (small : n * type.size < UInt32.size) :
    ∃ plan legal, ReturnPlan.classify sig.returnTypes t = .ok plan ∧
      ReturnPlan.legalize sig t = .ok legal ∧
      (t ∈ Target.all → plan.usesBuffer = false → n * type.size ≤ resultBytes) ∧
      ∀ (e : Emission) (callee : String) (args : List Value) (ids : List TempId),
        args.length = sig.params.length → ids.Nodup →
        (∀ id ∈ ids, id.toNat < e.nextTemp.toNat) →
        e.nextTemp.toNat + (n - ids.length) + 1 < UInt32.size →
        ∃ results code slots,
          CallAgrees plan sig legal type n e callee args ids results code slots := by
  have classified := ReturnPlan.classifyRepeated t positive value
  rw [← returns] at classified
  refine ⟨_, _, classified, ReturnPlan.legalizeClassified classified, fun member direct => ?_,
    fun e callee args ids operands once reserved room => ?_⟩
  · simp only [ReturnPlan.usesBuffer] at direct
    split at direct
    · cases direct
    · rename_i registers
      exact Nat.le_trans (ReturnPlan.registersHold registers) (targetsHold t member)
  · split
    · rename_i buffer
      exact bufferAgrees returns visible returns operands once reserved room value buffer rfl small
    · rename_i direct
      exact directAgrees returns visible returns operands once reserved room
        (Bool.eq_false_iff.mpr direct)

end Conventions

def hueSig : Signature := .ofTypes [.i32] [.i32, .i32, .i32]

def hueCall (plan : ReturnPlan) : List Value × Emission :=
  (callByPlan "qs_hue2rgb_q32" plan [.temp 0] [2]).run (.fresh 3)

def huePaint (plan : ReturnPlan) : Function where
  name := "paint"
  sig := hueSig
  blocks := [⟨"entry", [⟨0, .i32⟩],
    (hueCall plan).2.code ++ [{ Instr.blank .ret with operands := (hueCall plan).1 }]⟩]
  slots := (hueCall plan).2.slots
  valueNames := []

def hueMachine (plan : ReturnPlan) (legal : Signature) : Machine where
  program := ⟨[⟨"qs_hue2rgb_q32", legal⟩], [huePaint plan]⟩
  registry := some ⟨[⟨⟨"hue2rgb", .vec3, [⟨"hue", .float, .input⟩]⟩, none, "qs_hue2rgb_q32", "",
    some (.ofInts fun a => (Native.hueToRgbFixed (a 0)).toList)⟩], [⟨⟨"hue2rgb", .vec3,
      [⟨"hue", .float, .input⟩]⟩, false, [0]⟩], [0]⟩
  domain := .ieee

def hueLanes : List (List UInt8) := [[0, 0, 1, 0], [48, 117, 0, 0], [0, 0, 0, 0]]

theorem hueAnswers (plan : ReturnPlan) (legal : Signature) :
    (hueMachine plan legal).Answers "qs_hue2rgb_q32" hueSig legal [5000] .i32 hueLanes := by
  have writes : NativeRoutine.ofInts (fun a => (Native.hueToRgbFixed (a 0)).toList)
    (cells .ieee hueSig.params [5000]) = hueLanes.flatten := by decide +kernel
  exact ⟨⟨_, ⟨rfl, rfl, rfl⟩, writes⟩, by decide⟩

def HuePainted (t : Target) (buffer : Bool) (values : List Value) : Prop :=
  ∃ plan legal start s' steps, ReturnPlan.classify hueSig.returnTypes t = .ok plan ∧
    ReturnPlan.legalize hueSig t = .ok legal ∧ plan.usesBuffer = buffer ∧
    (hueMachine plan legal).enter "paint" [5000] = .ok start ∧
    (hueMachine plan legal).Reaches steps start s' ∧
    s'.frame.rest = [{ Instr.blank .ret with operands := values }] ∧
    s'.frame.values? .ieee values = some [65536, 30000, 0]

theorem huePainted {t : Target} {plan : ReturnPlan} {legal : Signature} {start : State}
    {results : List TempId} {code : List Instr} {slots : List FrameSlot}
    (classified : ReturnPlan.classify hueSig.returnTypes t = .ok plan)
    (legalized : ReturnPlan.legalize hueSig t = .ok legal)
    (agrees : CallAgrees plan hueSig legal .i32 3 (.fresh 3) "qs_hue2rgb_q32" [.temp 0] [2]
      results code slots)
    (begins : (hueMachine plan legal).enter "paint" [5000] = .ok start)
    (rest : start.frame.rest =
      (hueCall plan).2.code ++ [{ Instr.blank .ret with operands := (hueCall plan).1 }])
    (fn : start.frame.fn = huePaint plan) (few : start.memory.buffers.length < UInt32.size)
    (argument : start.frame.values? .ieee [.temp 0] = some [5000]) :
    HuePainted t plan.usesBuffer (hueCall plan).1 := by
  have values : (hueCall plan).1 = results.map .temp := agrees.adds.values
  have written : (hueCall plan).2.code = code := agrees.adds.code
  have further : (hueCall plan).2.slots = slots := agrees.adds.slots
  have meets : (hueMachine plan legal).Meets start code
      [{ Instr.blank .ret with operands := (hueCall plan).1 }] ([] ++ slots) := by
    refine ⟨⟨_, _, _, _, begins, .here start⟩, written ▸ rest, ?_, few⟩
    rw [fn, ← further]
    exact List.prefix_rfl
  obtain ⟨s', path, left, held, -⟩ := agrees.delivers (hueMachine plan legal) start _ [5000]
    hueLanes rfl meets (by decide) argument (hueAnswers plan legal) rfl
  refine ⟨plan, legal, start, s', _, classified, legalized, rfl, begins, path, left, ?_⟩
  rw [values]
  have color : hueLanes.map (FloatDomain.ieee.load .i32) = [65536, 30000, 0] := by decide +kernel
  exact held.trans (congrArg some color)

theorem huesAgree :
    HuePainted .riscv32Ilp32 true [.temp 2, .temp 4, .temp 5] ∧
    HuePainted .x86_64Sysv false [.temp 2, .temp 3, .temp 4] := by
  constructor
  · obtain ⟨plan, legal, classified, legalized, -, agree⟩ :=
      conventionsAgree .riscv32Ilp32 hueSig .i32 3 (by decide) (by decide) rfl rfl (by decide)
    obtain ⟨results, code, slots, agrees⟩ := agree (.fresh 3) "qs_hue2rgb_q32" [.temp 0] [2] rfl
      (by simp) (List.forall_mem_singleton.mpr (by decide)) (by decide)
    cases classified
    cases legalized
    exact huePainted rfl rfl agrees rfl rfl rfl (by decide) rfl
  · obtain ⟨plan, legal, classified, legalized, -, agree⟩ :=
      conventionsAgree .x86_64Sysv hueSig .i32 3 (by decide) (by decide) rfl rfl (by decide)
    obtain ⟨results, code, slots, agrees⟩ := agree (.fresh 3) "qs_hue2rgb_q32" [.temp 0] [2] rfl
      (by simp) (List.forall_mem_singleton.mpr (by decide)) (by decide)
    cases classified
    cases legalized
    exact huePainted rfl rfl agrees rfl rfl rfl (by decide) rfl

end Machine

end FixedIL
