import FixedIL.Proofs.CallEmission
import FixedIL.Proofs.SlotMemory

/-!
Calls of native routines, carried out step by step. A routine writes its lanes one behind the other,
into the machine's own bytes or into a slot of the caller; either way the results are the lanes.
-/
namespace FixedIL

namespace Frame

variable {f : Frame} {d : FloatDomain} {ids : List TempId} {ws : List Word} {id : TempId}

def puts (f : Frame) : List TempId → List Word → Frame
  | id :: ids, w :: ws => (f.put id w).puts ids ws
  | _, _ => f

theorem putsOther (f : Frame) (other : id ∉ ids) (ws : List Word) :
    (f.puts ids ws).regs[id.toNat]? = f.regs[id.toNat]? := by
  induction ids generalizing f ws with
  | nil => rfl
  | cons first ids ih =>
    cases ws with
    | nil => rfl
    | cons w ws =>
      have rest := List.not_mem_of_not_mem_cons other
      rw [puts, ih _ rest, putOther f (List.ne_of_not_mem_cons other)]

theorem putsRest (f : Frame) (ids : List TempId) (ws : List Word) (code : List Instr) :
    { f with rest := code }.puts ids ws = { f.puts ids ws with rest := code } := by
  induction ids generalizing f ws with
  | nil => rfl
  | cons id ids ih =>
    cases ws with
    | nil => rfl
    | cons w ws => exact ih (f.put id w) ws

theorem valuesRead {v : Value} {vs : List Value} {w : Word} (value : f.value? d v = some w)
    (values : f.values? d vs = some ws) : f.values? d (v :: vs) = some (w :: ws) := by
  unfold values? at values ⊢
  rw [List.mapM_cons, value, values]
  rfl

theorem putInside {first k : TempId} {w : Word}
    (inside : ∀ id ∈ first :: ids, id.toNat < f.regs.size) :
    ∀ id ∈ ids, id.toNat < (f.put k w).regs.size := by
  intro id member
  rw [putSize]
  exact inside id (List.mem_cons_of_mem _ member)

theorem putsHeld (f : Frame) (once : ids.Nodup) (inside : ∀ id ∈ ids, id.toNat < f.regs.size)
    (count : ids.length = ws.length) :
    (f.puts ids ws).values? d (ids.map Value.temp) = some ws := by
  induction ids generalizing f ws with
  | nil =>
    obtain rfl := List.length_eq_zero_iff.mp count.symm
    rfl
  | cons id ids ih =>
    cases ws with
    | nil => cases count
    | cons w ws =>
      have ⟨new, once⟩ := List.nodup_cons.mp once
      have held : ((f.put id w).puts ids ws).regs[id.toNat]? = some w := by
        rw [putsOther _ new, putSame (inside id List.mem_cons_self)]
      have others := ih (f.put id w) once (putInside inside) (Nat.succ.inj count)
      rw [puts, List.map_cons]
      exact valuesRead held others

theorem valuesPut (f : Frame) (d : FloatDomain) (id : TempId) (w : Word) {vs : List Value}
    (unread : .temp id ∉ vs) : (f.put id w).values? d vs = f.values? d vs := by
  induction vs with
  | nil => rfl
  | cons v vs ih =>
    have ⟨other, others⟩ := List.ne_and_not_mem_of_not_mem_cons unread
    have same := ih others
    have first := f.valuePut d id w (v := v) fun k is same => other (by rw [is, same])
    unfold values? at same ⊢
    rw [List.mapM_cons, List.mapM_cons, first, same]

theorem assignPuts (f : Frame) (type : Ty) (inside : ∀ id ∈ ids, id.toNat < f.regs.size)
    (ws : List Word) : f.assign? (ids.map fun id => ⟨id, type⟩) ws = some (f.puts ids ws) := by
  induction ids generalizing f ws with
  | nil => rfl
  | cons id ids ih =>
    cases ws with
    | nil => rfl
    | cons w ws =>
      have written := writeInside (inside id List.mem_cons_self) w
      have others := ih (f.put id w) (putInside inside) ws
      rw [List.map_cons, assign?, written]
      exact others

end Frame

section Lanes

variable {lanes : List (List UInt8)} {size : Nat}

theorem laneSlice (long : ∀ lane ∈ lanes, lane.length = size) (rest : List UInt8) {k : Nat}
    {lane : List UInt8} (here : lanes[k]? = some lane) :
    Bytes.slice (lanes.flatten ++ rest) (k * size) size = lane := by
  induction lanes generalizing k with
  | nil => cases here
  | cons first lanes ih =>
    have ⟨own, others⟩ := List.forall_mem_cons.mp long
    cases k with
    | zero =>
      cases here
      simp [Bytes.slice, own.symm]
    | succ k =>
      have later := ih others here
      have shift : (k + 1) * size = first.length + k * size := by
        rw [own, Nat.add_mul, Nat.one_mul, Nat.add_comm]
      rw [List.flatten_cons, List.append_assoc, Bytes.slice, shift, ← List.drop_drop,
        List.drop_left]
      exact later

theorem lanesLength (long : ∀ lane ∈ lanes, lane.length = size) :
    lanes.flatten.length = lanes.length * size := by
  induction lanes with
  | nil => simp
  | cons first lanes ih =>
    have ⟨own, others⟩ := List.forall_mem_cons.mp long
    rw [List.flatten_cons, List.length_append, own, ih others, List.length_cons, Nat.add_mul,
      Nat.one_mul, Nat.add_comm]

theorem Machine.loadLanes {d : FloatDomain} {type : Ty}
    (long : ∀ lane ∈ lanes, lane.length = d.sizeOf type) (rest : List UInt8) :
    loadResults d (List.replicate lanes.length type) (lanes.flatten ++ rest) =
      lanes.map (d.load type) := by
  induction lanes with
  | nil => rfl
  | cons first lanes ih =>
    have ⟨own, others⟩ := List.forall_mem_cons.mp long
    rw [List.length_cons, List.replicate_succ, loadResults, List.flatten_cons, List.append_assoc,
      List.map_cons, ← own, List.take_left, List.drop_left, ih others]

theorem Memory.lanesBack {m : Memory} {k : Nat} {buffer : List UInt8} (number : k + 1 < UInt32.size)
    (found : m.buffers[k]? = some buffer) (long : ∀ lane ∈ lanes, lane.length = size)
    (room : lanes.length * size ≤ buffer.length) (small : lanes.length * size < UInt32.size) :
    ∃ m', m.write? (address k 0) lanes.flatten = some m' ∧ ∀ j lane, lanes[j]? = some lane →
      m'.read? (address k 0 + UInt64.ofNat (j * size)) size = some lane := by
  have total := lanesLength long
  refine ⟨_, writeAddress number found (by rw [total]; exact room), fun j lane here => ?_⟩
  have low : k < m.buffers.length := (List.getElem?_eq_some_iff.mp found).1
  have upper : (j + 1) * size ≤ lanes.length * size :=
    Nat.mul_le_mul_right size (List.getElem?_eq_some_iff.mp here).1
  rw [Nat.add_mul, Nat.one_mul] at upper
  have placed : (m.buffers.set k (lanes.flatten ++ buffer.drop lanes.flatten.length))[k]? =
      some (lanes.flatten ++ buffer.drop lanes.flatten.length) := List.getElem?_set_self low
  have length : (lanes.flatten ++ buffer.drop lanes.flatten.length).length = buffer.length := by
    rw [List.length_append, List.length_drop, total]
    omega
  have inside : j * size + size ≤
      (lanes.flatten ++ buffer.drop lanes.flatten.length).length := by
    rw [length]
    exact Nat.le_trans upper room
  have read := readAddress (m := ⟨_⟩) number placed inside (by omega)
  rw [read, laneSlice long _ here]

end Lanes

theorem ieeeSize (t : Ty) : FloatDomain.ieee.sizeOf t = t.size := by
  cases t <;> rfl

namespace Machine

section Cells

variable {d : FloatDomain} {params : List Slot} {w : Word} {words : List Word}

theorem cellsVisible (visible : params.findIdx? (fun p => p.purpose = .structReturn) = none) :
    cells d params words = (params.zip words).map fun a => d.cell a.1.type a.2 := by
  have all : (params.zip words).zipIdx.filter (fun a => some a.2 ≠ (none : Option Nat)) =
      (params.zip words).zipIdx := by simp
  rw [cells, visible, all]
  exact Emit.zipIdxFirst (fun a : Slot × Word => d.cell a.1.type a.2) 0 _

theorem cellsHidden (visible : params.findIdx? (fun p => p.purpose = .structReturn) = none) :
    cells d (⟨.ptr, .structReturn⟩ :: params) (w :: words) = cells d params words := by
  have all : ((params.zip words).zipIdx 1).filter (fun a => some a.2 ≠ some 0) =
      (params.zip words).zipIdx 1 := by
    apply List.filter_eq_self.mpr
    intro a member
    have behind := List.le_snd_of_mem_zipIdx member
    simp
    omega
  have first : (⟨.ptr, .structReturn⟩ :: params : List Slot).findIdx?
      (fun p => p.purpose = .structReturn) = some 0 := rfl
  rw [cellsVisible visible, cells, first, List.zip_cons_cons, List.zipIdx_cons,
    List.filter_cons_of_neg (by simp), all]
  exact Emit.zipIdxFirst (fun a : Slot × Word => d.cell a.1.type a.2) 1 _

end Cells

open Emit

variable {m : Machine} {s : State} {i : Instr} {after : List Instr} {id base : TempId} {loc : Loc}

theorem stepDefines {words : List Word} {w : Word} {t : Temp} {more : List Temp}
    (plain : m.step s i after = m.plain s i after)
    (read : s.frame.values? m.domain (i.operands.take i.op.minOperands) = some words)
    (made : m.access s i words = .ok (some w, s.memory)) (result : i.results = t :: more)
    (room : t.id.toNat < s.frame.regs.size) :
    m.step s i after =
      .ok (.running { s with frame := { s.frame.put t.id w with rest := after } }) := by
  rw [plain]
  simp only [Machine.plain, read, made, Frame.define, result, Frame.orTrap,
    Frame.writeInside room, bind, Except.bind]

theorem stepSlot {k : Nat} (inside : k < s.frame.fn.slots.length) (small : k < UInt32.size)
    (room : id.toNat < s.frame.regs.size) :
    m.step s (computing .stackaddr .ptr [.int (Int64.ofNat k), .int 0] id loc) after =
      .ok (.running { s with frame := { s.frame.put id
        (Memory.address (s.frame.firstBuffer + k) 0) with rest := after } }) := by
  have number : (Word.ofInt64 (Int64.ofNat k)).toInt64.toInt = k :=
    Int64.toInt_ofNat_of_lt (Nat.lt_trans small (by decide))
  have found : 0 ≤ (k : Int) ∧ (k : Int) < s.frame.fn.slots.length :=
    ⟨Int.natCast_nonneg k, Int.ofNat_lt.mpr inside⟩
  have made : slotAddress s.frame
      (computing .stackaddr .ptr [.int (Int64.ofNat k), .int 0] id loc)
      (Word.ofInt64 (Int64.ofNat k)) 0 = .ok (Memory.address (s.frame.firstBuffer + k) 0) := by
    simp only [slotAddress, number, if_pos found, Int.toNat_natCast]
    rfl
  have access : m.access s (computing .stackaddr .ptr [.int (Int64.ofNat k), .int 0] id loc)
      [Word.ofInt64 (Int64.ofNat k), 0] =
      .ok (some (Memory.address (s.frame.firstBuffer + k) 0), s.memory) := by
    change (slotAddress s.frame _ _ _ >>= _) = _
    rw [made]
    rfl
  exact stepDefines rfl rfl access rfl room

theorem stepLoad (ieee : m.domain = .ieee) {type : Ty} (value : type ≠ .void) {address : Word}
    (held : s.frame.regs[base.toNat]? = some address) (nonzero : address ≠ 0) {offset : Nat}
    {bytes : List UInt8}
    (read : s.memory.read? (address + UInt64.ofNat offset) type.size = some bytes)
    (room : id.toNat < s.frame.regs.size) :
    m.step s (computing .load type [.temp base, .int (Int64.ofNat offset)] id loc) after =
      .ok (.running { s with frame := { s.frame.put id (m.domain.load type bytes) with
        rest := after } }) := by
  have values : s.frame.values? m.domain [.temp base, .int (Int64.ofNat offset)] =
      some [address, UInt64.ofNat offset] := by
    simp only [Frame.values?, Frame.value?, List.mapM_cons, List.mapM_nil, held]
    rfl
  have size : m.domain.sizeOf type ≠ 0 := by
    rw [ieee, ieeeSize]
    cases type <;> simp_all [Ty.size]
  have found : s.memory.read? (address + UInt64.ofNat offset) (m.domain.sizeOf type) =
      some bytes := by
    rw [ieee, ieeeSize]
    exact read
  have made : m.access s
      (computing .load type [.temp base, .int (Int64.ofNat offset)] id loc)
      [address, UInt64.ofNat offset] = .ok (some (m.domain.load type bytes), s.memory) := by
    change (target s.frame _ _ _ >>= _) = _
    simp only [target, if_neg nonzero, loadFrom, computing, if_neg size, found, Frame.orTrap, bind,
      Except.bind]
  exact stepDefines rfl values made rfl room

section Loads

variable {type : Ty} {ids : List TempId} {address : Word} {plan : ReturnPlan}

theorem loadsRun (ieee : m.domain = .ieee) (value : type ≠ .void) (nonzero : address ≠ 0)
    (held : s.frame.regs[base.toNat]? = some address) (other : base ∉ ids)
    (inside : ∀ id ∈ ids, id.toNat < s.frame.regs.size) (k : Nat) {lanes : List (List UInt8)}
    (count : ids.length = lanes.length)
    (reads : ∀ j lane, lanes[j]? = some lane →
      s.memory.read? (address + UInt64.ofNat (plan.offset (k + j))) type.size = some lane)
    (rest : s.frame.rest = loadInstrs plan type (.temp base) k ids loc ++ after) :
    m.Reaches ids.length s { s with frame := { s.frame.puts ids
      (lanes.map (m.domain.load type)) with rest := after } } := by
  induction ids generalizing s k lanes with
  | nil =>
    obtain rfl := List.length_eq_zero_iff.mp count.symm
    obtain rfl : s.frame.rest = after := rest
    exact .here s
  | cons id ids ih =>
    cases lanes with
    | nil => cases count
    | cons lane lanes =>
      have ⟨apart, others⟩ := List.ne_and_not_mem_of_not_mem_cons other
      let next : State := { s with frame := { s.frame.put id (m.domain.load type lane) with
        rest := loadInstrs plan type (.temp base) (k + 1) ids loc ++ after } }
      have first : m.Reaches 1 s next := reachesOne rest
        (stepLoad ieee value held nonzero (reads 0 lane rfl) (inside id List.mem_cons_self))
      -- No load writes the temporary that the loads take the address from.
      have loaded := ih (s := next) ((s.frame.putOther apart _).trans held) others
        (Frame.putInside inside) (k + 1) (Nat.succ.inj count)
        (fun j lane found => by
          rw [Nat.add_right_comm]
          exact reads (j + 1) lane found)
        rfl
      rw [Frame.putsRest] at loaded
      rw [List.length_cons, Nat.add_comm]
      exact reachesTrans first loaded

end Loads

structure Binds (m : Machine) (symbol : String) (sig : Signature) (routine : NativeRoutine) :
    Prop where
  foreign : m.program.functionNamed? symbol = none
  declared : m.program.externNamed? symbol = some ⟨symbol, sig⟩
  bound : m.registry.bind (m.domain.routine? · symbol) = some routine

section Calls

variable {callee : String} {sig : Signature} {routine : NativeRoutine} {words : List Word}
  {type : Ty} {lanes : List (List UInt8)} {f : Frame} {memory : Memory}

theorem externDirect (binds : m.Binds callee sig routine) (visible : sig.structReturnIndex? = none)
    (returns : sig.returnTypes = List.replicate lanes.length type)
    (writes : routine (cells m.domain sig.params words) = lanes.flatten)
    (long : ∀ lane ∈ lanes, lane.length = m.domain.sizeOf type) :
    m.callExtern f i ⟨callee, sig⟩ words memory =
      .ok (lanes.map (m.domain.load type), memory) := by
  simp only [callExtern, binds.bound, visible, writes, returns, padded, loadLanes long]

theorem externBuffer
    (binds : m.Binds callee ⟨⟨.ptr, .structReturn⟩ :: sig.params, []⟩ routine)
    (visible : sig.structReturnIndex? = none) {address : Word} {memory' : Memory}
    (written : memory.write? address (routine (cells m.domain sig.params words)) = some memory') :
    m.callExtern f i ⟨callee, ⟨⟨.ptr, .structReturn⟩ :: sig.params, []⟩⟩ (address :: words) memory =
      .ok ([], memory') := by
  have first : Signature.structReturnIndex? ⟨⟨.ptr, .structReturn⟩ :: sig.params, []⟩ =
    some 0 := rfl
  simp only [callExtern, binds.bound, first, cellsHidden visible, List.getElem?_cons_zero,
    written, Frame.orTrap, bind, Except.bind]

theorem foreignCall (ids : List TempId) (type : Ty) {args : List Value} {results : List Word}
    {memory : Memory} (binds : m.Binds callee sig routine)
    (values : s.frame.values? m.domain args = some words)
    (given : m.callExtern s.frame (callInstr callee (ids.map (⟨·, type⟩)) args loc) ⟨callee, sig⟩
      words s.memory = .ok (results, memory))
    (count : ids.length = results.length) (inside : ∀ id ∈ ids, id.toNat < s.frame.regs.size)
    (rest : s.frame.rest = callInstr callee (ids.map (⟨·, type⟩)) args loc :: after) :
    m.Reaches 1 s { s with
      frame := { s.frame.puts ids results with rest := after }, memory := memory } := by
  have same : ¬ results.length ≠ (ids.map fun id => (⟨id, type⟩ : Temp)).length := by
    rw [List.length_map, count]
    exact fun differ => differ rfl
  have delivered : State.deliver s.frame (callInstr callee (ids.map (⟨·, type⟩)) args loc)
      results = .ok (s.frame.puts ids results) := by
    simp only [State.deliver, callInstr, if_neg same, Frame.assignPuts s.frame type inside,
      Frame.orTrap]
  refine reachesOne rest ?_
  change m.call s _ after = _
  simp only [callInstr] at given delivered
  simp only [call, callInstr, values, binds.foreign, binds.declared, given, delivered,
    Frame.orTrap, bind, Except.bind]

theorem directCall {ids : List TempId} {args : List Value} (ieee : m.domain = .ieee)
    (binds : m.Binds callee sig routine) (visible : sig.structReturnIndex? = none)
    (returns : sig.returnTypes = List.replicate lanes.length type)
    (values : s.frame.values? m.domain args = some words)
    (writes : routine (cells m.domain sig.params words) = lanes.flatten)
    (long : ∀ lane ∈ lanes, lane.length = type.size) (count : ids.length = lanes.length)
    (inside : ∀ id ∈ ids, id.toNat < s.frame.regs.size)
    (rest : s.frame.rest = callInstr callee (ids.map (⟨·, type⟩)) args loc :: after) :
    m.Reaches 1 s { s with frame := { s.frame.puts ids (lanes.map (m.domain.load type)) with
      rest := after } } := by
  have sized : ∀ lane ∈ lanes, lane.length = m.domain.sizeOf type := by
    rw [ieee, ieeeSize]
    exact long
  exact foreignCall ids type binds values (externDirect binds visible returns writes sized)
    (count.trans (List.length_map _).symm) inside rest

theorem bufferCall {ids : List TempId} {args : List Value} {plan : ReturnPlan} {buffer : TempId}
    {k : Nat} {slot : FrameSlot} (ieee : m.domain = .ieee) (value : type ≠ .void)
    (binds : m.Binds callee ⟨⟨.ptr, .structReturn⟩ :: sig.params, []⟩ routine)
    (visible : sig.structReturnIndex? = none) (housed : s.Housed)
    (addressed : s.memory.buffers.length < UInt32.size) (here : s.frame.fn.slots[k]? = some slot)
    (room : slot.size.toNat = lanes.length * type.size) (parts : plan.elementSize = type.size)
    (values : s.frame.values? m.domain args = some words)
    (writes : routine (cells m.domain sig.params words) = lanes.flatten)
    (long : ∀ lane ∈ lanes, lane.length = type.size) (count : ids.length = lanes.length)
    (inside : ∀ id ∈ buffer :: ids, id.toNat < s.frame.regs.size) (other : buffer ∉ ids)
    (unread : .temp buffer ∉ args)
    (rest : s.frame.rest = computing .stackaddr .ptr [.int (Int64.ofNat k), .int 0] buffer loc ::
      callInstr callee [] (.temp buffer :: args) loc ::
      (loadInstrs plan type (.temp buffer) 0 ids loc ++ after)) :
    ∃ address memory,
      s.memory.write? (Memory.address (s.frame.firstBuffer + k) 0) lanes.flatten = some memory ∧
      m.Reaches (ids.length + 2) s { s with
        frame := { (s.frame.put buffer address).puts ids (lanes.map (m.domain.load type)) with
          rest := after },
        memory := memory } := by
  obtain ⟨old, found, length⟩ := housed.buffer here
  have low : s.frame.firstBuffer + k < s.memory.buffers.length :=
    (List.getElem?_eq_some_iff.mp found).1
  have number : s.frame.firstBuffer + k + 1 < UInt32.size := by omega
  have inSlots : k < s.frame.fn.slots.length := (List.getElem?_eq_some_iff.mp here).1
  have small : k < UInt32.size := by omega
  have own := inside buffer List.mem_cons_self
  obtain ⟨memory, written, reads⟩ := Memory.lanesBack number found long
    (by rw [length, ← room]; exact Nat.le_max_left _ _)
    (by rw [← room]; exact UInt32.toNat_lt_size _)
  let address := Memory.address (s.frame.firstBuffer + k) 0
  let loads := loadInstrs plan type (.temp buffer) 0 ids loc ++ after
  let slotted : State := { s with frame := { s.frame.put buffer address with
    rest := callInstr callee [] (.temp buffer :: args) loc :: loads } }
  let called : State := { s with
    frame := { s.frame.put buffer address with rest := loads }, memory := memory }
  have held : (s.frame.put buffer address).regs[buffer.toNat]? = some address :=
    Frame.putSame own address
  have passed : slotted.frame.values? m.domain (.temp buffer :: args) = some (address :: words) :=
    Frame.valuesRead held ((s.frame.valuesPut m.domain buffer address unread).trans values)
  -- The address of the slot, the call that fills the buffer, and a load for each lane.
  have first : m.Reaches 1 s slotted := reachesOne rest (stepSlot inSlots small own)
  have second : m.Reaches 1 slotted called := by
    have stored := written
    rw [← writes] at stored
    exact foreignCall [] .void binds passed (externBuffer binds visible stored) rfl nofun rfl
  have third := loadsRun (s := called) ieee value (Memory.addressNonzero number) held other
    (Frame.putInside inside) 0 count
    (fun j lane here => by
      rw [Nat.zero_add, ReturnPlan.offset, parts]
      exact reads j lane here)
    rfl
  refine ⟨address, memory, written, ?_⟩
  have path := reachesTrans (reachesTrans first second) third
  rw [Nat.add_comm, Frame.putsRest] at path
  exact path

end Calls

end Machine

end FixedIL
