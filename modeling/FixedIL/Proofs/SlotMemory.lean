import FixedIL.Proofs.Moves

/-!
Where the slots of a frame lie. Memory holds the buffers of all frames, those of the frame at work
behind those of the frames that wait for it, and every buffer is as long as its slot says. No step
of a run changes the length of a buffer that is in use.
-/
namespace FixedIL

namespace Memory

variable {m m' : Memory}

def lengths (m : Memory) : List Nat := m.buffers.map List.length

theorem writeLengths {a : UInt64} {bytes : List UInt8} (written : m.write? a bytes = some m') :
    m'.lengths = m.lengths := by
  obtain ⟨⟨k, offset⟩, -, written⟩ := Option.bind_eq_some_iff.mp written
  obtain ⟨buffer, found, written⟩ := Option.bind_eq_some_iff.mp written
  split at written
  · rename_i inside
    cases written
    have same := Bytes.overwriteLength inside
    rw [lengths, List.map_set, same]
    have place : m.lengths[k]? = some buffer.length := by simp [lengths, found]
    obtain ⟨low, length⟩ := List.getElem?_eq_some_iff.mp place
    rw [← length]
    exact List.set_getElem_self low
  · cases written

theorem allocateLengths (m : Memory) (sizes : List Nat) :
    (m.allocate sizes).lengths = m.lengths ++ sizes.map fun n => max n 1 := by
  simp [lengths, allocate]

theorem releaseLengths (m : Memory) (first : Nat) :
    (m.release first).lengths = m.lengths.take first := by
  simp [lengths, release, List.map_take]

section Address

variable {k offset : Nat} {buffer : List UInt8}

theorem addressNat (number : k + 1 < UInt32.size) :
    (address k 0).toNat = (k + 1) * UInt32.size := by
  have word : (UInt64.ofNat (k + 1)).toNat = k + 1 :=
    UInt64.toNat_ofNat_of_lt' (Nat.lt_trans number (by decide))
  have zero : address k 0 = UInt64.ofNat (k + 1) <<< 32 := UInt64.add_zero _
  have high : (k + 1) <<< 32 = (k + 1) * UInt32.size := Nat.shiftLeft_eq _ _
  have below : (k + 1) * UInt32.size < UInt64.size :=
    Nat.mul_lt_mul_of_pos_right number (by decide)
  rw [zero, UInt64.toNat_shiftLeft, word]
  exact (congrArg (· % 2 ^ 64) high).trans (Nat.mod_eq_of_lt below)

theorem addressNonzero (number : k + 1 < UInt32.size) : address k 0 ≠ 0 := by
  intro zero
  have nat : (address k 0).toNat = (k + 1) * 2 ^ 32 := addressNat number
  rw [zero] at nat
  have none : (0 : UInt64).toNat = 0 := rfl
  omega

theorem locateAddress (number : k + 1 < UInt32.size) (small : offset < UInt32.size) :
    locate? (address k 0 + UInt64.ofNat offset) = some (k, offset) := by
  have word : (UInt64.ofNat offset).toNat = offset :=
    UInt64.toNat_ofNat_of_lt' (Nat.lt_trans small (by decide))
  have bound : k + 1 < 2 ^ 32 := number
  have low : offset < 2 ^ 32 := small
  have start : (address k 0).toNat = (k + 1) * 2 ^ 32 := addressNat number
  have sum : (address k 0 + UInt64.ofNat offset).toNat = (k + 1) * 2 ^ 32 + offset := by
    rw [UInt64.toNat_add, start, word]
    exact Nat.mod_eq_of_lt (by omega)
  have upper : ((address k 0 + UInt64.ofNat offset) >>> 32).toNat = k + 1 := by
    rw [UInt64.toNat_shiftRight, sum]
    refine (Nat.shiftRight_eq_div_pow _ 32).trans ?_
    omega
  have lower : ((address k 0 + UInt64.ofNat offset) &&& 0xffffffff).toNat = offset := by
    rw [UInt64.toNat_and, sum]
    refine (Nat.and_two_pow_sub_one_eq_mod _ 32).trans ?_
    omega
  rw [locate?, upper, lower]

theorem readLocated {a : UInt64} {n : Nat} (place : locate? a = some (k, offset))
    (found : m.buffers[k]? = some buffer) (inside : offset + n ≤ buffer.length) :
    m.read? a n = some (Bytes.slice buffer offset n) := by
  simp only [read?, place, found, bind, Option.bind, if_pos inside]

theorem writeLocated {a : UInt64} {bytes : List UInt8} (place : locate? a = some (k, offset))
    (found : m.buffers[k]? = some buffer) (inside : offset + bytes.length ≤ buffer.length) :
    m.write? a bytes = some ⟨m.buffers.set k (Bytes.overwrite buffer offset bytes)⟩ := by
  simp only [write?, place, found, bind, Option.bind, if_pos inside]

theorem readAddress (number : k + 1 < UInt32.size) (found : m.buffers[k]? = some buffer) {n : Nat}
    (inside : offset + n ≤ buffer.length) (small : offset < UInt32.size) :
    m.read? (address k 0 + UInt64.ofNat offset) n = some (Bytes.slice buffer offset n) :=
  readLocated (locateAddress number small) found inside

theorem writeAddress (number : k + 1 < UInt32.size) (found : m.buffers[k]? = some buffer)
    {bytes : List UInt8} (inside : bytes.length ≤ buffer.length) :
    m.write? (address k 0) bytes =
      some ⟨m.buffers.set k (bytes ++ buffer.drop bytes.length)⟩ := by
  have start : locate? (address k 0 + UInt64.ofNat 0) = some (k, 0) :=
    locateAddress number (by decide)
  have zero : address k 0 + UInt64.ofNat 0 = address k 0 := UInt64.add_zero _
  rw [zero] at start
  have fits : 0 + bytes.length ≤ buffer.length := by omega
  rw [writeLocated start found fits]
  simp [Bytes.overwrite]

end Address

end Memory

def Function.slotLengths (fn : Function) : List Nat := (slotSizes fn).map fun n => max n 1

inductive Stacked : List Frame → List Nat → Prop where
  | nil : Stacked [] []
  | cons {f : Frame} {callers : List Frame} {below : List Nat}
      (first : f.firstBuffer = below.length) (rest : Stacked callers below) :
      Stacked (f :: callers) (below ++ f.fn.slotLengths)

namespace Stacked

variable {f f' : Frame} {callers : List Frame} {lengths : List Nat}

theorem moved (stacked : Stacked (f :: callers) lengths) (fn : f'.fn = f.fn)
    (first : f'.firstBuffer = f.firstBuffer) : Stacked (f' :: callers) lengths := by
  cases stacked with
  | cons own rest =>
    rw [← fn]
    exact .cons (first.trans own) rest

theorem waiting (stacked : Stacked (f :: callers) lengths) :
    Stacked callers (lengths.take f.firstBuffer) := by
  cases stacked with
  | cons own rest =>
    rw [own, List.take_left]
    exact rest

theorem place (stacked : Stacked (f :: callers) lengths) {k : Nat} {slot : FrameSlot}
    (here : f.fn.slots[k]? = some slot) :
    lengths[f.firstBuffer + k]? = some (max slot.size.toNat 1) := by
  cases stacked with
  | cons own rest =>
    rw [own, List.getElem?_append_right (Nat.le_add_right _ _), Nat.add_sub_cancel_left]
    simp [Function.slotLengths, slotSizes, here]

theorem bounded {frames : List Frame} {most : Nat} (stacked : Stacked frames lengths)
    (each : ∀ f ∈ frames, f.fn.slots.length ≤ most) : lengths.length ≤ frames.length * most := by
  induction stacked with
  | nil => exact Nat.zero_le _
  | @cons f callers below first rest ih =>
    obtain ⟨own, others⟩ := List.forall_mem_cons.mp each
    have count : f.fn.slotLengths.length = f.fn.slots.length := by
      simp [Function.slotLengths, slotSizes]
    rw [List.length_append, count, List.length_cons, Nat.succ_mul]
    exact Nat.add_le_add (ih others) own

end Stacked

def State.Housed (s : State) : Prop := Stacked (s.frame :: s.callers) s.memory.lengths

theorem State.Housed.buffer {s : State} (housed : s.Housed) {k : Nat} {slot : FrameSlot}
    (here : s.frame.fn.slots[k]? = some slot) :
    ∃ bytes, s.memory.buffers[s.frame.firstBuffer + k]? = some bytes ∧
      bytes.length = max slot.size.toNat 1 := by
  have length := Stacked.place housed here
  rw [Memory.lengths, List.getElem?_map] at length
  exact Option.map_eq_some_iff.mp length

namespace Machine

variable {m : Machine} {s start next final : State} {i : Instr} {after : List Instr} {n : Nat}
  {name : String} {args : List Word} {memory : Memory}

theorem accessLengths {words : List Word} {w? : Option Word}
    (access : m.access s i words = .ok (w?, memory)) : memory.lengths = s.memory.lengths := by
  unfold Machine.access at access
  split at access
  · obtain ⟨address, -, same⟩ := boundOk access
    cases same
    rfl
  · obtain ⟨address, -, access⟩ := boundOk access
    obtain ⟨w, -, same⟩ := boundOk access
    cases same
    rfl
  · obtain ⟨address, -, access⟩ := boundOk access
    obtain ⟨memory', stored, same⟩ := boundOk access
    cases same
    unfold storeTo at stored
    simp only at stored
    split at stored
    · cases stored
      rfl
    · exact Memory.writeLengths (readOk stored)
  · split at access
    · cases access
      rfl
    · cases access

theorem externLengths {f : Frame} {e : Extern} {memory' : Memory} {results : List Word}
    (given : m.callExtern f i e args memory = .ok (results, memory')) :
    memory'.lengths = memory.lengths := by
  unfold callExtern at given
  split at given
  · cases given
  · simp only at given
    split at given
    · cases given
      rfl
    · obtain ⟨address, -, given⟩ := boundOk given
      obtain ⟨written, found, same⟩ := boundOk given
      cases same
      exact Memory.writeLengths (readOk found)

theorem assignPlace {f f' : Frame} {ts : List Temp} {ws : List Word}
    (assigned : f.assign? ts ws = some f') :
    f'.fn = f.fn ∧ f'.firstBuffer = f.firstBuffer := by
  rw [Frame.assignShape assigned]
  exact ⟨rfl, rfl⟩

theorem housedStep (housed : s.Housed) (stepped : m.step s i after = .ok (.running next)) :
    next.Housed := by
  unfold State.Housed at housed ⊢
  cases stepMoves stepped with
  | keep op access =>
    rw [accessLengths access]
    exact housed.moved rfl rfl
  | define op values access results assigned =>
    obtain ⟨fn, first⟩ := assignPlace assigned
    rw [accessLengths access]
    exact housed.moved fn first
  | enter op values named entered =>
    obtain ⟨entry, rest, blocks, count, assigned⟩ := Frame.enterOk entered
    obtain ⟨fn, first⟩ := assignPlace assigned
    have length : s.memory.lengths.length = s.memory.buffers.length := List.length_map _
    have own := Stacked.cons (first.trans length.symm) housed
    rw [fn] at own
    rw [Memory.allocateLengths]
    exact own
  | native op unnamed named given count assigned =>
    obtain ⟨fn, first⟩ := assignPlace assigned
    rw [externLengths given]
    exact housed.moved fn first
  | ret op values callers head count assigned =>
    obtain ⟨fn, first⟩ := assignPlace assigned
    have below := housed.waiting
    rw [callers] at below
    rw [Memory.releaseLengths]
    exact below.moved fn first
  | jump op jumped =>
    obtain ⟨label, args, target, words, -, -, -, -, -, assigned⟩ := Frame.jumpOk jumped
    obtain ⟨fn, first⟩ := assignPlace assigned
    exact housed.moved fn first

theorem startHoused (begins : m.enter name args = .ok start) : start.Housed := by
  unfold Machine.enter at begins
  split at begins
  · cases begins
  · obtain ⟨frame, entered, same⟩ := boundOk begins
    cases same
    obtain ⟨entry, rest, blocks, count, assigned⟩ := Frame.enterOk entered
    obtain ⟨fn, first⟩ := assignPlace assigned
    have own : Stacked [frame] ([] ++ frame.fn.slotLengths) := .cons first .nil
    rw [fn] at own
    unfold State.Housed
    rw [Memory.allocateLengths]
    exact own

theorem shallowStep (shallow : s.callers.length ≤ maxCallDepth)
    (stepped : m.step s i after = .ok (.running next)) : next.callers.length ≤ maxCallDepth := by
  cases stepMoves stepped with
  | enter op values named entered =>
    unfold Frame.enter at entered
    split at entered
    · cases entered
    · exact Nat.le_of_not_lt ‹_›
  | ret op values callers head count assigned =>
    rw [callers] at shallow
    exact Nat.le_of_succ_le shallow
  | keep | define | native | jump => exact shallow

theorem housedReaches (begins : m.enter name args = .ok start) (path : m.Reaches n start final) :
    final.Housed :=
  reachesKeeps path (startHoused begins) fun _ _ _ _ _ _ _ stepped housed =>
    housedStep housed stepped

end Machine
end FixedIL
