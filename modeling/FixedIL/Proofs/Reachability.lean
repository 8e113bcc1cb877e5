import FixedIL.Machine.Run

/-!
Steps one after another, whatever the limit of the run they belong to. A run behind a
path is the run of its last state with what is left of the limit.
-/
namespace FixedIL
namespace Machine

inductive Reaches (m : Machine) : Nat → State → State → Prop where
  | here (s : State) : Reaches m 0 s s
  | step {n : Nat} {s next final : State} {i : Instr} {after : List Instr}
      (head : s.frame.rest = i :: after) (stepped : m.step s i after = .ok (.running next))
      (rest : Reaches m n next final) : Reaches m (n + 1) s final

def Fails (m : Machine) (s : State) (e : RunError) : Prop :=
  ∃ i after, s.frame.rest = i :: after ∧ m.step s i after = .error e

variable {m : Machine} {n k : Nat} {s mid final next : State} {i : Instr} {after : List Instr}

theorem reachesOne (head : s.frame.rest = i :: after)
    (stepped : m.step s i after = .ok (.running next)) : m.Reaches 1 s next :=
  .step head stepped (.here next)

theorem reachesTrans (first : m.Reaches n s mid) (second : m.Reaches k mid final) :
    m.Reaches (n + k) s final := by
  induction first with
  | here s => simpa using second
  | step head stepped rest ih =>
    rw [Nat.add_right_comm]
    exact .step head stepped (ih second)

theorem runFromReaches (path : m.Reaches n s final) (allowed taken : Nat) :
    m.runFrom (n + allowed) taken s = m.runFrom allowed (taken + n) final := by
  induction path generalizing taken with
  | here s => simp
  | step head stepped rest ih =>
    rw [Nat.add_right_comm, runFrom.eq_def, head]
    simp only [stepped]
    rw [ih, Nat.add_assoc, Nat.add_comm 1]

theorem runFromShort (path : m.Reaches n s final) {allowed : Nat} (short : allowed < n)
    (taken : Nat) : ∃ fn i, (m.runFrom allowed taken s).outcome =
      .failed (.trap fn (some i) .stepLimit) := by
  induction path generalizing allowed taken with
  | here s => exact absurd short (Nat.not_lt_zero _)
  | step head stepped rest ih =>
    rw [runFrom.eq_def, head]
    cases allowed with
    | zero => exact ⟨_, _, rfl⟩
    | succ left =>
      simp only [stepped]
      exact ih (Nat.lt_of_succ_lt_succ short) (taken + 1)

theorem runFromFails {e : RunError} (fails : m.Fails s e) (allowed taken : Nat) :
    m.runFrom (allowed + 1) taken s = ⟨.failed e, taken + 1⟩ := by
  obtain ⟨i, after, head, stepped⟩ := fails
  rw [runFrom.eq_def, head]
  simp only [stepped]

end Machine
end FixedIL
