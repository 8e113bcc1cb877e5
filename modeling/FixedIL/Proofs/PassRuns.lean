import FixedIL.Pass
import FixedIL.Proofs.PassSteps

/-!
Runs of a pass over the functions of a program: each function is converted from a blank state
that holds nothing but the externs declared so far.
-/
namespace FixedIL.Pass

open PassM

def begun (externs : List Extern) : PassState :=
  { PassState.blank (.fresh 0) with externs := externs }

def sigFor (pass : Pass) (p : Program) (f : Function) : Signature :=
  ((pass.site p f).signature? f.name).getD default

inductive Runs (pass : Pass) (p : Program) :
    List Function → List Extern → List Function → List Extern → Prop where
  | nil (externs : List Extern) : Runs pass p [] externs [] externs
  | cons {f f' : Function} {rest converted : List Function} {externs externs' : List Extern}
      {s' : PassState} (gives : (pass.function p f (pass.sigFor p f)).Gives (begun externs) f' s')
      (tail : Runs pass p rest s'.externs converted externs') :
      Runs pass p (f :: rest) externs (f' :: converted) externs'

variable {pass : Pass} {p p' : Program} {f f' : Function} {fs fs' : List Function}
  {externs externs' : List Extern}

theorem runFunctionGives : pass.runFunction p externs f = .ok (f', externs') ↔
    ∃ s', (pass.function p f (pass.sigFor p f)).Gives (begun externs) f' s' ∧
      s'.externs = externs' := by
  unfold Gives
  rcases run : (pass.function p f (pass.sigFor p f)).run.run (begun externs) with ⟨e | made, s⟩
  · have ends : pass.runFunction p externs f = .error e := by
      unfold sigFor begun at run
      rw [runFunction, run]
    rw [ends]
    constructor
    · intro same
      cases same
    · rintro ⟨_, gives, -⟩
      cases gives
  · have ends : pass.runFunction p externs f = .ok (made, s.externs) := by
      unfold sigFor begun at run
      rw [runFunction, run]
    rw [ends]
    constructor
    · intro same
      cases same
      exact ⟨s, rfl, rfl⟩
    · rintro ⟨s', gives, rfl⟩
      cases gives
      rfl

theorem runFunctionsGive : (pass.runFunctions p externs fs).2 = .ok (fs', externs') ↔
    Runs pass p fs externs fs' externs' := by
  constructor
  · intro run
    induction fs generalizing fs' externs with
    | nil =>
      cases run
      exact .nil _
    | cons f rest ih =>
      rw [runFunctions] at run
      cases first : pass.runFunction p externs f with
      | error e =>
        rw [first] at run
        cases run
      | ok made =>
        obtain ⟨f', more⟩ := made
        rw [first] at run
        cases others : (pass.runFunctions p more rest).2 with
        | error e =>
          simp only [others] at run
          cases run
        | ok made =>
          simp only [others] at run
          cases run
          obtain ⟨s', gives, rfl⟩ := runFunctionGives.mp first
          exact .cons gives (ih others)
  · intro runs
    induction runs with
    | nil => rfl
    | cons gives tail ih =>
      rw [runFunctions, runFunctionGives.mpr ⟨_, gives, rfl⟩]
      simp only [ih]
      rfl

theorem runsAt (runs : Runs pass p fs externs fs' externs') {k : Nat} (place : fs[k]? = some f) :
    ∃ f' before s', fs'[k]? = some f' ∧
      (pass.function p f (pass.sigFor p f)).Gives (begun before) f' s' := by
  induction runs generalizing k with
  | nil => cases place
  | cons gives tail ih =>
    cases k with
    | zero =>
      cases place
      exact ⟨_, _, _, rfl, gives⟩
    | succ k => exact ih place

theorem runGives : pass.run p = .ok p' ↔ ∃ externs, pass.keepExterns p = .ok externs ∧
    Runs pass p p.functions externs p'.functions p'.externs := by
  rw [run, runTraced]
  cases pass.keepExterns p with
  | error e => simp
  | ok externs =>
    simp only [Except.ok.injEq, exists_eq_left', ← runFunctionsGive]
    cases (pass.runFunctions p externs p.functions).2 with
    | error e => simp [Except.map]
    | ok made =>
      obtain ⟨fs, others⟩ := made
      obtain ⟨externs', fs'⟩ := p'
      simp [Except.map, and_comm]

end FixedIL.Pass
