import FixedIL.Proofs.SlotMemory

/-!
Two memories that are the same but for some buffers. What is read outside of these is the same, and
what is written there keeps it so; the buffers themselves may be written in one memory alone.
-/
namespace FixedIL

namespace Memory

structure SameBut (hidden : Nat → Prop) (m m' : Memory) : Prop where
  count : m'.buffers.length = m.buffers.length
  shared : ∀ k, ¬ hidden k → m'.buffers[k]? = m.buffers[k]?

def Avoids (hidden : Nat → Prop) (a : UInt64) : Prop :=
  ∀ k offset, locate? a = some (k, offset) → ¬ hidden k

variable {hidden hidden' : Nat → Prop} {m m' written : Memory} {a : UInt64} {bytes : List UInt8}
  {k offset : Nat}

theorem sameRefl (hidden : Nat → Prop) (m : Memory) : SameBut hidden m m := ⟨rfl, fun _ _ => rfl⟩

theorem SameBut.weaken (same : SameBut hidden m m') (more : ∀ k, hidden k → hidden' k) :
    SameBut hidden' m m' :=
  ⟨same.count, fun k outside => same.shared k fun inside => outside (more k inside)⟩

theorem SameBut.read (same : SameBut hidden m m') (avoids : Avoids hidden a) (n : Nat) :
    m'.read? a n = m.read? a n := by
  cases place : locate? a with
  | none => simp only [read?, place, bind, Option.bind]
  | some at' =>
    have found := same.shared at'.1 (avoids at'.1 at'.2 place)
    simp only [read?, place, found, bind, Option.bind]

theorem writeOther (stored : m.write? a bytes = some written) :
    written.buffers.length = m.buffers.length ∧
      ∀ k, (∀ offset, locate? a ≠ some (k, offset)) → written.buffers[k]? = m.buffers[k]? := by
  obtain ⟨⟨place, offset⟩, located, stored⟩ := Option.bind_eq_some_iff.mp stored
  obtain ⟨buffer, found, stored⟩ := Option.bind_eq_some_iff.mp stored
  split at stored
  · cases stored
    refine ⟨List.length_set, fun k elsewhere => ?_⟩
    refine List.getElem?_set_ne ?_
    rintro rfl
    exact elsewhere offset located
  · cases stored

theorem SameBut.write (same : SameBut hidden m m') (avoids : Avoids hidden a)
    (stored : m.write? a bytes = some written) :
    ∃ written', m'.write? a bytes = some written' ∧ SameBut hidden written written' := by
  obtain ⟨⟨place, offset⟩, located, stored⟩ := Option.bind_eq_some_iff.mp stored
  obtain ⟨buffer, found, stored⟩ := Option.bind_eq_some_iff.mp stored
  have found' := (same.shared place (avoids place offset located)).trans found
  split at stored
  · rename_i inside
    cases stored
    refine ⟨_, writeLocated located found' inside, ?_, fun k outside => ?_⟩
    · rw [List.length_set, List.length_set]
      exact same.count
    · rw [List.getElem?_set, List.getElem?_set, same.count, same.shared k outside]
  · cases stored

theorem SameBut.writeFails (same : SameBut hidden m m') (avoids : Avoids hidden a)
    (fails : m.write? a bytes = none) : m'.write? a bytes = none := by
  cases place : locate? a with
  | none => simp only [write?, place, bind, Option.bind]
  | some at' =>
    have found := same.shared at'.1 (avoids at'.1 at'.2 place)
    cases held : m.buffers[at'.1]? with
    | none => simp only [write?, place, found.trans held, bind, Option.bind]
    | some buffer =>
      simp only [write?, place, held, bind, Option.bind] at fails
      simp only [write?, place, found.trans held, bind, Option.bind]
      split at fails
      · cases fails
      · rename_i outside
        rw [if_neg outside]

theorem SameBut.writeHidden (same : SameBut hidden m m')
    (inside : ∀ k offset, locate? a = some (k, offset) → hidden k)
    (stored : m'.write? a bytes = some written) : SameBut hidden m written := by
  obtain ⟨count, others⟩ := writeOther stored
  refine ⟨count.trans same.count, fun k outside => ?_⟩
  rw [others k fun offset located => outside (inside k offset located)]
  exact same.shared k outside

theorem SameBut.allocate (same : SameBut hidden m m') (sizes : List Nat)
    (more : ∀ k, hidden k → hidden' k) :
    SameBut hidden' (m.allocate sizes) (m'.allocate sizes) := by
  refine ⟨by simp [Memory.allocate, same.count], fun k outside => ?_⟩
  simp only [Memory.allocate, List.getElem?_append, same.count]
  split
  · exact same.shared k fun inside => outside (more k inside)
  · rfl

theorem SameBut.release (same : SameBut hidden m m') (first : Nat)
    (more : ∀ k, k < first → hidden k → hidden' k) :
    SameBut hidden' (m.release first) (m'.release first) := by
  refine ⟨by simp [Memory.release, same.count], fun k outside => ?_⟩
  simp only [Memory.release, List.getElem?_take]
  split
  · rename_i low
    exact same.shared k fun inside => outside (more k low inside)
  · rfl

end Memory

def Program.slotCount (p : Program) (name : String) : Nat :=
  ((p.functionNamed? name).map fun f => f.slots.length).getD 0

def Frame.Hides (p : Program) (f : Frame) (k : Nat) : Prop :=
  f.firstBuffer + p.slotCount f.fn.name ≤ k ∧ k < f.firstBuffer + f.fn.slots.length

def State.Hides (p : Program) (s : State) (k : Nat) : Prop :=
  ∃ f ∈ s.frame :: s.callers, f.Hides p k

def Frame.address? (d : FloatDomain) (f : Frame) : Option Word :=
  match f.rest with
  | [] => none
  | i :: _ =>
    match i.op, f.values? d (i.operands.take i.op.minOperands) with
    | .load, some (base :: offset :: _) => some (base + offset)
    | .store, some (base :: _ :: offset :: _) => some (base + offset)
    | _, _ => none

/-- The next load or store does not go to a buffer that the source knows nothing of. -/
def State.Apart (p : Program) (d : FloatDomain) (s : State) : Prop :=
  ∀ a ∈ s.frame.address? d, Memory.Avoids (s.Hides p) a

section Hidden

variable {p : Program} {s : State} {f f' : Frame} {callers : List Frame} {k : Nat}

theorem Frame.Hides.moved (hides : f.Hides p k) (fn : f'.fn = f.fn)
    (first : f'.firstBuffer = f.firstBuffer) : f'.Hides p k := by
  rw [Frame.Hides, fn, first]
  exact hides

end Hidden
end FixedIL
