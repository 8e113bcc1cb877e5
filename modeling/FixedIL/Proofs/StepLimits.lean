import FixedIL.Proofs.Moves

/-!
The limit on steps. The loop of a run has no bound of its own: it counts every instruction before
it carries it out, and stops at the first one that the limit does not allow. What a run does before
it is stopped does not depend on the limit.
-/
namespace FixedIL

def Run.OutOfSteps (r : Run) : Prop := ∃ fn i, r.outcome = .failed (.trap fn (some i) .stepLimit)

def Unlimited {α : Type} (x : Except RunError α) : Prop :=
  ∀ fn place, x ≠ .error (.trap fn place .stepLimit)

section Unlimited

variable {α β : Type} {f : Frame} {i : Instr} {cause : TrapCause}

theorem unlimitedOk {a : α} : Unlimited (.ok a : Except RunError α) :=
  fun _ _ same => by cases same

theorem unlimitedFail {name : String} {place : Option Instr} (other : cause ≠ .stepLimit) :
    Unlimited (.error (.trap name place cause) : Except RunError α) := by
  intro fn place same
  cases same
  exact other rfl

theorem unlimitedTrap (other : cause ≠ .stepLimit) : Unlimited (f.trap i cause : Except RunError α) :=
  unlimitedFail other

theorem unlimitedRead {o : Option α} (other : cause ≠ .stepLimit) :
    Unlimited (f.orTrap i cause o) := by
  cases o with
  | none => exact unlimitedTrap other
  | some a => exact unlimitedOk

theorem unlimitedBind {x : Except RunError α} {g : α → Except RunError β} (first : Unlimited x)
    (second : ∀ a, Unlimited (g a)) : Unlimited (x >>= g) := by
  cases x with
  | error e =>
    intro fn place same
    cases same
    exact first fn place rfl
  | ok a => exact second a

theorem unlimitedIte {c : Prop} [Decidable c] {x y : Except RunError α} (yes : Unlimited x)
    (no : Unlimited y) : Unlimited (if c then x else y) := by
  split
  · exact yes
  · exact no

end Unlimited

theorem FloatDomain.computeUnlimited {d : FloatDomain} {typeOf? : Value → Option Ty} {i : Instr}
    {words : List Word} : d.compute typeOf? i words ≠ .error .stepLimit := by
  intro stops
  unfold compute at stops
  split at stops <;> try cases stops
  · split at stops <;> cases stops
  · split at stops <;> cases stops

namespace Frame

variable {f : Frame} {i : Instr}

theorem enterUnlimited {fn : Function} {args : List Word} {depth firstBuffer : Nat} :
    Unlimited (Frame.enter fn args depth firstBuffer) := by
  unfold enter
  refine unlimitedIte (unlimitedFail nofun) ?_
  split
  · exact unlimitedFail nofun
  · refine unlimitedIte (unlimitedFail nofun) ?_
    simp only
    split
    · exact unlimitedOk
    · exact unlimitedFail nofun

theorem jumpUnlimited {d : FloatDomain} {arm : Nat} : Unlimited (f.jump d i arm) := by
  refine unlimitedBind (unlimitedRead nofun) fun label => ?_
  refine unlimitedBind (unlimitedRead nofun) fun args => ?_
  refine unlimitedBind (unlimitedRead nofun) fun target => ?_
  refine unlimitedIte (unlimitedTrap nofun) ?_
  exact unlimitedBind (unlimitedRead nofun) fun words => unlimitedRead nofun

theorem defineUnlimited {w : Word} : Unlimited (f.define i w) := by
  unfold define
  split
  · exact unlimitedTrap nofun
  · exact unlimitedRead nofun

theorem deliverUnlimited {results : List Word} : Unlimited (State.deliver f i results) :=
  unlimitedIte (unlimitedTrap nofun) (unlimitedRead nofun)

end Frame

namespace Machine

variable {m : Machine} {s : State} {i : Instr} {after : List Instr} {limit limit' taken : Nat}
  {r r' : Run} {name : String} {args : List Word}

theorem externUnlimited {f : Frame} {e : Extern} {memory : Memory} :
    Unlimited (m.callExtern f i e args memory) := by
  unfold callExtern
  split
  · exact fun fn place same => by cases same
  · simp only
    split
    · exact unlimitedOk
    · refine unlimitedBind (unlimitedRead nofun) fun address => ?_
      exact unlimitedBind (unlimitedRead nofun) fun memory => unlimitedOk

theorem callUnlimited : Unlimited (m.call s i after) := by
  refine unlimitedBind (unlimitedRead nofun) fun args => ?_
  split
  · exact unlimitedBind Frame.enterUnlimited fun callee => unlimitedOk
  · split
    · exact unlimitedTrap nofun
    · refine unlimitedBind externUnlimited fun returned => ?_
      exact unlimitedBind Frame.deliverUnlimited fun f => unlimitedOk

theorem retUnlimited : Unlimited (m.ret s i) := by
  refine unlimitedBind (unlimitedRead nofun) fun results => ?_
  split
  · exact unlimitedOk
  · split
    · exact unlimitedTrap nofun
    · exact unlimitedBind Frame.deliverUnlimited fun caller => unlimitedOk

theorem accessUnlimited {words : List Word} : Unlimited (m.access s i words) := by
  have aimed (base offset : Word) : Unlimited (target s.frame i base offset) :=
    unlimitedIte (unlimitedTrap nofun) unlimitedOk
  unfold access
  split
  · refine unlimitedBind ?_ fun address => unlimitedOk
    exact unlimitedIte unlimitedOk (unlimitedTrap nofun)
  · refine unlimitedBind (aimed _ _) fun address => unlimitedBind ?_ fun w => unlimitedOk
    refine unlimitedIte unlimitedOk ?_
    exact unlimitedBind (unlimitedRead nofun) fun bytes => unlimitedOk
  · refine unlimitedBind (aimed _ _) fun address => unlimitedBind ?_ fun memory => unlimitedOk
    exact unlimitedIte unlimitedOk (unlimitedRead nofun)
  · split
    · exact unlimitedOk
    · rename_i cause stops
      refine unlimitedTrap fun same => ?_
      exact FloatDomain.computeUnlimited (same ▸ stops)

theorem plainUnlimited : Unlimited (m.plain s i after) := by
  refine unlimitedBind (unlimitedRead nofun) fun words => ?_
  refine unlimitedBind accessUnlimited fun ⟨w?, memory⟩ => ?_
  cases w? with
  | none => exact unlimitedOk
  | some w => exact unlimitedBind Frame.defineUnlimited fun f => unlimitedOk

theorem stepUnlimited : Unlimited (m.step s i after) := by
  unfold step
  split
  · exact callUnlimited
  · exact retUnlimited
  · exact unlimitedBind Frame.jumpUnlimited fun f => unlimitedOk
  · refine unlimitedBind (unlimitedRead nofun) fun c => ?_
    exact unlimitedBind Frame.jumpUnlimited fun f => unlimitedOk
  · exact plainUnlimited

theorem enterUnlimited : Unlimited (m.enter name args) := by
  unfold enter
  split
  · exact fun fn place same => by cases same
  · exact unlimitedBind Frame.enterUnlimited fun frame => unlimitedOk

inductive Loops (m : Machine) (limit : Nat) : Nat → State → Run → Prop where
  | fellThrough {taken : Nat} {s : State} (done : s.frame.rest = []) :
      Loops m limit taken s
        ⟨.failed (.trap s.frame.fn.name none (.fellThrough s.frame.label)), taken⟩
  | stopped {taken : Nat} {s : State} {i : Instr} {after : List Instr}
      (head : s.frame.rest = i :: after) (past : limit < taken + 1) :
      Loops m limit taken s ⟨.failed (.trap s.frame.fn.name (some i) .stepLimit), taken + 1⟩
  | failed {taken : Nat} {s : State} {i : Instr} {after : List Instr} {e : RunError}
      (head : s.frame.rest = i :: after) (within : taken + 1 ≤ limit)
      (stepped : m.step s i after = .error e) : Loops m limit taken s ⟨.failed e, taken + 1⟩
  | finished {taken : Nat} {s : State} {i : Instr} {after : List Instr} {results : List Word}
      (head : s.frame.rest = i :: after) (within : taken + 1 ≤ limit)
      (stepped : m.step s i after = .ok (.finished results)) :
      Loops m limit taken s ⟨.returned results, taken + 1⟩
  | running {taken : Nat} {s next : State} {i : Instr} {after : List Instr} {r : Run}
      (head : s.frame.rest = i :: after) (within : taken + 1 ≤ limit)
      (stepped : m.step s i after = .ok (.running next))
      (rest : Loops m limit (taken + 1) next r) : Loops m limit taken s r

/-- A call from outside: steps are counted once its first frame is made. -/
inductive Calls (m : Machine) (limit : Nat) (name : String) (args : List Word) : Run → Prop where
  | refused {e : RunError} (begins : m.enter name args = .error e) :
      Calls m limit name args ⟨.failed e, 0⟩
  | ran {s : State} {r : Run} (begins : m.enter name args = .ok s) (loops : m.Loops limit 0 s r) :
      Calls m limit name args r

theorem runFromLoops (allowed taken : Nat) (s : State) :
    m.Loops (taken + allowed) taken s (m.runFrom allowed taken s) := by
  induction allowed generalizing taken s with
  | zero =>
    rw [runFrom.eq_def]
    split
    · exact .fellThrough ‹_›
    · exact .stopped ‹_› (Nat.lt_succ_self taken)
  | succ left ih =>
    have within : taken + 1 ≤ taken + (left + 1) := by omega
    rw [runFrom.eq_def]
    split
    · exact .fellThrough ‹_›
    · rename_i i after head
      simp only
      split
      · exact .failed head within ‹_›
      · exact .finished head within ‹_›
      · rename_i next stepped
        have rest := ih (taken + 1) next
        rw [Nat.add_right_comm] at rest
        exact .running head within stepped rest

theorem Loops.once (loops : m.Loops limit taken s r) (again : m.Loops limit taken s r') : r = r' := by
  induction loops with
  | fellThrough done => cases again <;> simp_all
  | stopped head past =>
    cases again <;> first | omega | simp_all
  | failed head within stepped =>
    cases again <;> first | omega | simp_all
  | finished head within stepped =>
    cases again <;> first | omega | simp_all
  | running head within stepped rest ih =>
    cases again with
    | fellThrough done => simp_all
    | stopped head' past => omega
    | failed head' within' stepped' => simp_all
    | finished head' within' stepped' => simp_all
    | running head' within' stepped' rest' =>
      cases head.symm.trans head'
      cases stepped.symm.trans stepped'
      exact ih rest'

theorem Loops.counted (loops : m.Loops limit taken s r) (within : taken ≤ limit) :
    (r.OutOfSteps → r.steps = limit + 1) ∧ (¬ r.OutOfSteps → r.steps ≤ limit) := by
  induction loops with
  | fellThrough done =>
    refine ⟨fun ⟨fn, i, same⟩ => ?_, fun _ => within⟩
    cases same
  | stopped head past => exact ⟨fun _ => by simp only; omega, fun kept => absurd ⟨_, _, rfl⟩ kept⟩
  | failed head allowed stepped =>
    refine ⟨fun ⟨fn, i, same⟩ => ?_, fun _ => allowed⟩
    cases same
    exact absurd stepped (stepUnlimited _ _)
  | finished head allowed stepped =>
    refine ⟨fun ⟨fn, i, same⟩ => ?_, fun _ => allowed⟩
    cases same
  | running head allowed stepped rest ih => exact ih allowed

theorem Loops.longer (loops : m.Loops limit taken s r) (kept : ¬ r.OutOfSteps)
    (more : limit ≤ limit') : m.Loops limit' taken s r := by
  induction loops with
  | fellThrough done => exact .fellThrough done
  | stopped head past => exact absurd ⟨_, _, rfl⟩ kept
  | failed head within stepped => exact .failed head (Nat.le_trans within more) stepped
  | finished head within stepped => exact .finished head (Nat.le_trans within more) stepped
  | running head within stepped rest ih =>
    exact .running head (Nat.le_trans within more) stepped (ih kept)

theorem Loops.shorter (loops : m.Loops limit taken s r) (within : taken ≤ limit')
    (less : limit' < r.steps) : ∃ r', m.Loops limit' taken s r' ∧ r'.OutOfSteps := by
  induction loops with
  | fellThrough done => exact absurd within (Nat.not_le_of_lt less)
  | stopped head past => exact ⟨_, .stopped head less, _, _, rfl⟩
  | failed head allowed stepped => exact ⟨_, .stopped head less, _, _, rfl⟩
  | finished head allowed stepped => exact ⟨_, .stopped head less, _, _, rfl⟩
  | @running taken s next i after r head allowed stepped rest ih =>
    rcases Nat.lt_or_ge limit' (taken + 1) with past | room
    · exact ⟨_, .stopped head past, _, _, rfl⟩
    · obtain ⟨r', loops, out⟩ := ih room less
      exact ⟨r', .running head room stepped loops, out⟩

theorem Calls.once (calls : m.Calls limit name args r) (again : m.Calls limit name args r') :
    r = r' := by
  cases calls with
  | refused begins => cases again <;> simp_all
  | ran begins loops =>
    cases again with
    | refused begins' => simp_all
    | ran begins' loops' =>
      cases begins.symm.trans begins'
      exact loops.once loops'

theorem callsRun (positive : 0 < limit) :
    m.Calls limit name args (m.runFunction (.ofNat limit) name args) := by
  have most : (StepLimit.ofNat limit).most = some limit := if_neg (Nat.ne_of_gt positive)
  unfold runFunction
  split
  · exact .refused ‹_›
  · rename_i s begins
    refine .ran begins ?_
    have loops := runFromLoops (m := m) limit 0 s
    rw [Nat.zero_add] at loops
    simpa [StepLimit.allowed, most] using loops

theorem callsIff (positive : 0 < limit) :
    m.Calls limit name args r ↔ m.runFunction (.ofNat limit) name args = r :=
  ⟨fun calls => (callsRun positive).once calls, fun same => same ▸ callsRun positive⟩

theorem refusedKept {e : RunError} (begins : m.enter name args = .error e) :
    ¬ (⟨.failed e, 0⟩ : Run).OutOfSteps := by
  rintro ⟨fn, i, same⟩
  cases same
  exact enterUnlimited _ _ begins

theorem unlimitedCalls (m : Machine) (name : String) (args : List Word) :
    ∃ r, m.Calls StepLimit.horizon name args r ∧
      (m.runFunction (.ofNat 0) name args).outcome = r.outcome := by
  cases begins : m.enter name args with
  | error e =>
    refine ⟨_, .refused begins, ?_⟩
    simp only [runFunction, begins]
  | ok s =>
    have loops := runFromLoops (m := m) StepLimit.horizon 0 s
    rw [Nat.zero_add] at loops
    refine ⟨_, .ran begins loops, ?_⟩
    simp only [runFunction, begins]
    rfl

theorem horizonExact (m : Machine) (name : String) (args : List Word) (limit : Nat)
    (positive : 0 < limit) (within : limit ≤ StepLimit.horizon) :
    (¬ (m.runFunction (.ofNat limit) name args).OutOfSteps →
      (m.runFunction (.ofNat 0) name args).outcome =
        (m.runFunction (.ofNat limit) name args).outcome) ∧
    ((m.runFunction (.ofNat 0) name args).OutOfSteps →
      (m.runFunction (.ofNat limit) name args).OutOfSteps) := by
  obtain ⟨r, calls, ends⟩ := unlimitedCalls m name args
  have ended (kept : ¬ (m.runFunction (.ofNat limit) name args).OutOfSteps) :
      (m.runFunction (.ofNat 0) name args).outcome =
        (m.runFunction (.ofNat limit) name args).outcome := by
    have own : m.Calls limit name args (m.runFunction (.ofNat limit) name args) :=
      callsRun positive
    generalize m.runFunction (.ofNat limit) name args = r' at own kept ⊢
    have longer : m.Calls StepLimit.horizon name args r' := by
      cases own with
      | refused begins => exact .refused begins
      | ran begins loops => exact .ran begins (loops.longer kept within)
    rw [ends, calls.once longer]
  refine ⟨ended, fun stopped => Classical.byContradiction fun kept => ?_⟩
  obtain ⟨fn, i, same⟩ := stopped
  exact kept ⟨fn, i, (ended kept).symm.trans same⟩

/-- Under every limit a call comes to one end. A call that is stopped has counted one step more
than the limit allows; any other stays within it, and is the same call under every larger limit. A
limit below the steps that were counted stops it. -/
theorem stepLimitExact (m : Machine) (name : String) (args : List Word) (limit : Nat)
    (positive : 0 < limit) :
    ∃ r, (∀ r', m.Calls limit name args r' ↔ r' = r) ∧
      m.runFunction (.ofNat limit) name args = r ∧
      (r.OutOfSteps → r.steps = limit + 1) ∧
      (¬ r.OutOfSteps → r.steps ≤ limit ∧
        ∀ larger, limit < larger → m.runFunction (.ofNat larger) name args = r) ∧
      ∀ smaller, 0 < smaller → smaller < r.steps →
        (m.runFunction (.ofNat smaller) name args).OutOfSteps := by
  have calls : m.Calls limit name args (m.runFunction (.ofNat limit) name args) :=
    callsRun positive
  refine ⟨_, fun r' => ⟨fun other => other.once calls, fun same => same ▸ calls⟩, rfl, ?_⟩
  generalize m.runFunction (.ofNat limit) name args = r at calls
  cases calls with
  | refused begins =>
    refine ⟨fun out => absurd out (refusedKept begins), fun _ => ⟨limit.zero_le, ?_⟩, nofun⟩
    exact fun larger more => (callsIff (Nat.lt_trans positive more)).mp (.refused begins)
  | ran begins loops =>
    obtain ⟨out, kept⟩ := loops.counted limit.zero_le
    refine ⟨out, fun runs => ⟨kept runs, fun larger more => ?_⟩, fun smaller above less => ?_⟩
    · have again := loops.longer runs (Nat.le_of_lt more)
      exact (callsIff (Nat.lt_trans positive more)).mp (.ran begins again)
    · obtain ⟨r', loops', stopped⟩ := loops.shorter smaller.zero_le less
      rw [(callsIff above).mp (.ran begins loops')]
      exact stopped

def restless : Machine where
  program := ⟨[], [
    { Function.blank "spin" (.ofTypes [] []) with
      blocks := [⟨"entry", [], [{ Instr.blank .br with labels := ["loop"], branchArgs := [[]] }]⟩,
        ⟨"loop", [], [{ Instr.blank .br with labels := ["loop"], branchArgs := [[]] }]⟩] },
    { Function.blank "dive" (.ofTypes [] []) with
      blocks := [⟨"entry", [], [{ Instr.blank .call with callee := "dive" }, .blank .ret]⟩] }]⟩
  registry := none
  domain := .ieee

def drowned : Run := ⟨.failed (.trap "dive" none .callDepth), 257⟩

theorem restlessStops :
    (∃ r, (∀ r', restless.Calls 1000 "spin" [] r' ↔ r' = r) ∧ r.OutOfSteps ∧ r.steps = 1001) ∧
    (∀ r, restless.Calls 1000 "dive" [] r ↔ r = drowned) ∧
    (∀ larger, 1000 < larger → restless.runFunction (.ofNat larger) "dive" [] = drowned) ∧
    (restless.runFunction (.ofNat 256) "dive" []).OutOfSteps := by
  refine ⟨?_, ?_⟩
  · obtain ⟨r, calls, run, out, -⟩ := stepLimitExact restless "spin" [] 1000 (by decide)
    have stopped : r.OutOfSteps :=
      ⟨"spin", { Instr.blank .br with labels := ["loop"], branchArgs := [[]] },
        run ▸ by decide +kernel⟩
    exact ⟨r, calls, stopped, out stopped⟩
  · obtain ⟨r, calls, run, -, kept, smaller⟩ :=
      stepLimitExact restless "dive" [] 1000 (by decide)
    have drowns : restless.runFunction (.ofNat 1000) "dive" [] = drowned := by decide +kernel
    obtain rfl : drowned = r := drowns.symm.trans run
    have runs : ¬ drowned.OutOfSteps := fun ⟨fn, i, same⟩ => by cases same
    exact ⟨calls, (kept runs).2, smaller 256 (by decide) (by decide)⟩

end Machine
end FixedIL
