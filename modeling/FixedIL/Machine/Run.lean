import FixedIL.Machine.Step

/-!
Runs of a machine. Every instruction counts one step; a limit stops the run before the
instruction that would exceed it.
-/
namespace FixedIL

inductive Outcome where
  | returned (results : List Word)
  | failed (e : RunError)
  deriving DecidableEq, Repr

structure Run where
  outcome : Outcome
  steps : Nat
  deriving DecidableEq, Repr

structure StepLimit where
  most : Option Nat
  deriving DecidableEq, Repr

namespace StepLimit

/-- Zero switches the limit off. -/
def ofNat (n : Nat) : StepLimit := ⟨if n = 0 then none else some n⟩

def standard : StepLimit := ofNat 50000000

/-- A run without a limit is followed for so many steps, which no machine ever takes. One that goes
on behind them counts as stopped, and is all that is lost. -/
def horizon : Nat := Nat.pow 2 62

def allowed (l : StepLimit) : Nat := l.most.getD horizon

end StepLimit

namespace Machine

def runFrom (m : Machine) (allowed taken : Nat) (s : State) : Run :=
  match s.frame.rest with
  | [] => ⟨.failed (.trap s.frame.fn.name none (.fellThrough s.frame.label)), taken⟩
  | i :: after =>
    match allowed with
    | 0 => ⟨.failed (.trap s.frame.fn.name (some i) .stepLimit), taken + 1⟩
    | left + 1 =>
      match m.step s i after with
      | .error e => ⟨.failed e, taken + 1⟩
      | .ok (.finished results) => ⟨.returned results, taken + 1⟩
      | .ok (.running s') => runFrom m left (taken + 1) s'
termination_by structural allowed

def enter (m : Machine) (name : String) (args : List Word) : Except RunError State :=
  match m.program.functionNamed? name with
  | none => .error (.unknownFunction name)
  | some fn => do
    let frame ← Frame.enter fn args 0 0
    .ok ⟨frame, [], Memory.empty.allocate (slotSizes fn)⟩

/-- Steps are counted only under a limit. -/
def runFunction (m : Machine) (limit : StepLimit) (name : String) (args : List Word) : Run :=
  match m.enter name args with
  | .error e => ⟨.failed e, 0⟩
  | .ok s =>
    let r := m.runFrom limit.allowed 0 s
    { r with steps := if limit.most.isSome then r.steps else 0 }

end Machine
end FixedIL
