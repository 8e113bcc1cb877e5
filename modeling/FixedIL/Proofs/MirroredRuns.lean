import FixedIL.Proofs.MirroredNatives
import FixedIL.Proofs.StepLimits

/-!
Whole runs side by side. Every step of the reference run is answered by the lowered one, and so both
come to the same, or neither ever ends.
-/
namespace FixedIL

def Outcome.unplaced : Outcome → Outcome
  | .returned results => .returned results
  | .failed e => .failed e.unplaced

namespace Machine

inductive Ends (m : Machine) : Nat → State → Outcome → Prop where
  | fellThrough {s : State} (done : s.frame.rest = []) :
      Ends m 0 s (.failed (.trap s.frame.fn.name none (.fellThrough s.frame.label)))
  | failed {s : State} {e : RunError} (fails : m.Fails s e) : Ends m 0 s (.failed e)
  | finished {s : State} {i : Instr} {after : List Instr} {words : List Word}
      (head : s.frame.rest = i :: after) (stepped : m.step s i after = .ok (.finished words)) :
      Ends m 0 s (.returned words)
  | running {n : Nat} {s next : State} {i : Instr} {after : List Instr} {o : Outcome}
      (head : s.frame.rest = i :: after) (stepped : m.step s i after = .ok (.running next))
      (rest : Ends m n next o) : Ends m (n + 1) s o

def ComesTo (m : Machine) (name : String) (args : List Word) (o : Outcome) : Prop :=
  ∃ limit, 0 < limit ∧ (m.runFunction (.ofNat limit) name args).outcome = o ∧
    ¬ (m.runFunction (.ofNat limit) name args).OutOfSteps

variable {m : Machine} {n k limit taken : Nat} {s t : State} {o : Outcome} {i : Instr}
  {after : List Instr} {name : String} {args : List Word}

theorem endsBehind (path : m.Reaches k s t) (ends : m.Ends n t o) : m.Ends (k + n) s o := by
  induction path with
  | here s => rwa [Nat.zero_add]
  | step head stepped rest ih =>
    rw [Nat.add_right_comm]
    exact .running head stepped (ih ends)

theorem Ends.ahead (ends : m.Ends n s o) (head : s.frame.rest = i :: after) :
    match m.step s i after with
    | .error e => o = .failed e
    | .ok (.finished words) => o = .returned words
    | .ok (.running next) => ∃ k, n = k + 1 ∧ m.Ends k next o := by
  cases ends with
  | fellThrough done => cases head.symm.trans done
  | failed fails =>
    obtain ⟨i', after', head', stepped⟩ := fails
    obtain ⟨rfl, rfl⟩ := List.cons.inj (head.symm.trans head')
    rw [stepped]
  | finished head' stepped =>
    obtain ⟨rfl, rfl⟩ := List.cons.inj (head.symm.trans head')
    rw [stepped]
  | running head' stepped rest =>
    obtain ⟨rfl, rfl⟩ := List.cons.inj (head.symm.trans head')
    rw [stepped]
    exact ⟨_, rfl, rest⟩

theorem Ends.along (ends : m.Ends n s o) (path : m.Reaches k s t) :
    ∃ j, n = k + j ∧ m.Ends j t o := by
  induction path generalizing n with
  | here s => exact ⟨n, (Nat.zero_add n).symm, ends⟩
  | step head stepped rest ih =>
    have ahead := ends.ahead head
    rw [stepped] at ahead
    obtain ⟨left, rfl, rest⟩ := ahead
    obtain ⟨j, rfl, final⟩ := ih rest
    exact ⟨j, Nat.add_right_comm .., final⟩

theorem Ends.unlimited (ends : m.Ends n s o) (fn : String) (place : Instr) :
    o ≠ .failed (.trap fn (some place) .stepLimit) := by
  induction ends with
  | fellThrough | finished => exact nofun
  | failed fails =>
    obtain ⟨i, after, head, fails⟩ := fails
    rintro is
    cases is
    exact stepUnlimited _ _ fails
  | running head stepped rest ih => exact ih

theorem Ends.loops (ends : m.Ends n s o) (enough : taken + n < limit) :
    ∃ steps, m.Loops limit taken s ⟨o, steps⟩ := by
  induction ends generalizing taken with
  | fellThrough done => exact ⟨taken, .fellThrough done⟩
  | failed fails =>
    obtain ⟨i, after, head, fails⟩ := fails
    exact ⟨taken + 1, .failed head enough fails⟩
  | finished head stepped => exact ⟨taken + 1, .finished head enough stepped⟩
  | @running n s next i after o head stepped rest ih =>
    obtain ⟨steps, loops⟩ := ih (show taken + 1 + n < limit by omega)
    exact ⟨steps, .running head (by omega) stepped loops⟩

theorem Loops.ends {r : Run} (loops : m.Loops limit taken s r) (kept : ¬ r.OutOfSteps) :
    ∃ n, m.Ends n s r.outcome := by
  induction loops with
  | fellThrough done => exact ⟨0, .fellThrough done⟩
  | stopped head past => exact absurd ⟨_, _, rfl⟩ kept
  | failed head within stepped => exact ⟨0, .failed ⟨_, _, head, stepped⟩⟩
  | finished head within stepped => exact ⟨0, .finished head stepped⟩
  | running head within stepped rest ih =>
    obtain ⟨n, ends⟩ := ih kept
    exact ⟨n + 1, .running head stepped ends⟩

theorem comesReturned {words : List Word} (positive : 0 < limit)
    (returns : (m.runFunction (.ofNat limit) name args).outcome = .returned words) :
    m.ComesTo name args (.returned words) := by
  refine ⟨limit, positive, returns, ?_⟩
  rintro ⟨fn, i, failed⟩
  cases returns.symm.trans failed

theorem comesRefused {e : RunError} (begins : m.enter name args = .error e) :
    m.ComesTo name args o ↔ o = .failed e := by
  constructor
  · rintro ⟨limit, positive, rfl, -⟩
    rw [(callsIff positive).mp (.refused begins)]
  · rintro rfl
    refine ⟨1, Nat.one_pos, ?_⟩
    rw [(callsIff Nat.one_pos).mp (.refused begins)]
    exact ⟨rfl, refusedKept begins⟩

theorem comesEnds {start : State} (begins : m.enter name args = .ok start) :
    m.ComesTo name args o ↔ ∃ n, m.Ends n start o := by
  constructor
  · rintro ⟨limit, positive, rfl, kept⟩
    generalize ran : m.runFunction (.ofNat limit) name args = r at kept ⊢
    cases (callsIff positive).mpr ran with
    | refused begins' => cases begins.symm.trans begins'
    | ran begins' loops =>
      cases begins.symm.trans begins'
      exact loops.ends kept
  · rintro ⟨n, ends⟩
    obtain ⟨steps, loops⟩ := ends.loops (show 0 + n < n + 1 by omega)
    refine ⟨n + 1, n.succ_pos, ?_⟩
    rw [(callsIff n.succ_pos).mp (.ran begins loops)]
    refine ⟨rfl, ?_⟩
    rintro ⟨fn, i, same⟩
    exact ends.unlimited fn i same

end Machine

namespace Lowering

variable {c : Config} {p p' : Program} {fn : Function} {i j : Instr} {s s' next : State}
  {after code : List Instr} {σ : Value → Value} {e : Emission} {n : Nat} {o o' : Outcome}
  {name : String} {args : List Word}

section Shapes

variable {site : Site}

theorem rewrittenControl (rewritten : Rewritten site σ i j) (control : i.op.category = .control) :
    j = { i with operands := i.operands.map σ, branchArgs := i.branchArgs.map (·.map σ) } := by
  cases rewritten with
  | copied => rfl
  | intConst op | floatConst op | intLiteral op | select op | load op | store op | stackaddr op =>
    rw [op] at control
    cases control

theorem rewrittenOther (rewritten : Rewritten site σ i j) (other : i.op.category ≠ .control) :
    (i.op.category ≠ .call ∧ i.op.category ≠ .control) ∧
      (j.op.category ≠ .call ∧ j.op.category ≠ .control) ∧ sameNumberCast i.op = false ∧
      j.resultIds = i.resultIds := by
  have called : i.op.category ≠ .call := fun is =>
    (rewrittenPlain rewritten).1 (by revert is; cases i.op <;> simp [Opcode.category])
  refine ⟨⟨called, other⟩, ?_⟩
  cases rewritten with
  | copied kept =>
    refine ⟨⟨called, other⟩, ?_, rfl⟩
    revert kept
    cases i.op <;> simp [copied, sameNumberCast]
  | stackaddr op => exact ⟨⟨called, other⟩, by rw [op]; rfl, rfl⟩
  | store op operands results =>
    exact ⟨by constructor <;> rintro ⟨⟩, by rw [op]; rfl,
      (congrArg (List.map Temp.id) results).symm⟩
  | intConst op operands results | floatConst op operands results
  | intLiteral op operands results | select op operands results | load op operands results =>
    exact ⟨by constructor <;> rintro ⟨⟩, by rw [op]; rfl,
      (congrArg (List.map Temp.id) results).symm⟩

end Shapes

section Steps

variable (known : Comparable c p p') (meets : Meeting c p p' s s')
  (mirrors : Mirrors c p p' fn s.frame s'.frame) (rest : s.frame.rest = i :: after)
  (settles : Settles ((pass c).site p fn) σ)

include known meets mirrors rest

include settles in
theorem oneAnswered (rewritten : Rewritten ((pass c).site p fn) σ i j)
    (written : s'.frame.rest = (Emit.append j).written e ++ code)
    (segments : Segments (setting c p p'.externs fn s'.frame.fn) after code) :
    Answered c p p' s s' ((referenceMachine c p p').step s i after) := by
  obtain ⟨loc, one⟩ := writtenOne j e
  rw [one] at written
  refine alikeAnswered written ?_
  by_cases control : i.op.category = .control
  · obtain rfl := rewrittenControl rewritten control
    have kinds : (i.op = .br ∨ i.op = .cbr) ∨ i.op = .ret := by
      revert control
      cases i.op <;> simp [Opcode.category]
    rcases kinds with branch | ret
    · exact branchAlike known meets mirrors rest settles branch rfl rfl rfl rfl
    · exact retAlike known meets mirrors rest settles ret rfl rfl
  · obtain ⟨plain, plain', other, ids⟩ := rewrittenOther rewritten control
    have answers := rewrittenAnswers known meets mirrors rest settles rewritten
      (Opcode.plainShape plain).2 loc
    exact answers.step known meets mirrors rest written plain plain' other ids segments

theorem callAnswered (backed : c.registry.Backed) (linkable : Linkable c p) (op : i.op = .call) :
    Answered c p p' s s' ((referenceMachine c p p').step s i after) := by
  cases named : p.functionNamed? i.callee with
  | some callee => exact ownCallAnswered known meets mirrors rest op named
  | none =>
    cases found : c.registry.findSymbol? i.callee with
    | none => exact outsideAnswered known meets mirrors rest op named found
    | some hit => exact builtinAnswered known backed linkable meets mirrors rest op named found

omit mirrors in
theorem stepAnswered (backed : c.registry.Backed) (linkable : Linkable c p) :
    Answered c p p' s s' ((referenceMachine c p p').step s i after) := by
  obtain ⟨fn, mirrors⟩ := meets.related.frame
  obtain ⟨own, left, written, segment, segments⟩ := mirrors.ahead rest
  cases segment with
  | @written σ x names e lowered reserved inside below admitted retypes settles =>
    cases lowered with
    | one rewritten =>
      exact oneAnswered known meets mirrors rest settles rewritten written segments
    | sequence results sequenced =>
      rw [Emit.writtenDiscard] at written
      exact sequencedAnswered known meets mirrors rest settles sequenced results reserved written
        segments
    | same cast operands results =>
      have nothing : Emit.written (pure ()) e = [] := List.drop_length
      rw [nothing, List.nil_append] at written
      exact castAnswered known meets mirrors rest cast operands results (written ▸ segments)
    | call op => exact callAnswered known meets mirrors rest backed linkable op

end Steps

section Runs

variable {k : Nat} {t start start' : State}

theorem Meeting.onward (known : Comparable c p p') (meets : Meeting c p p' s s')
    (head : s.frame.rest = i :: after)
    (stepped : (referenceMachine c p p').step s i after = .ok (.running next))
    (path : (loweredMachine c p').Reaches n s' t) (related : Related c p p' next t)
    (apart : next.Apart p .encoded) : Meeting c p p' next t where
  related := related
  stores := Machine.storesStep (m := referenceMachine c p p') known.referenceRunnable.wellFormed rfl
    (Program.withSlotsTyped known.lowered.functions (fun _ _ made => made.name) known.typed)
    meets.linked meets.stores head stepped
  linked := Machine.linkedStep (m := referenceMachine c p p') meets.linked head stepped
  linked' := Machine.linkedReaches (m := loweredMachine c p') meets.linked' path
  housed := Machine.reachesKeeps path meets.housed fun _ _ _ _ _ _ _ stepped housed =>
    Machine.housedStep housed stepped
  shallow := Machine.reachesKeeps path meets.shallow fun _ _ _ _ _ _ _ stepped shallow =>
    Machine.shallowStep shallow stepped
  apart := apart

theorem startsAlike (known : Comparable c p p') (name : String) (args : List Word) :
    EndAlike (Related c p p') ((referenceMachine c p p').enter name args)
      ((loweredMachine c p').enter name args) := by
  unfold Machine.enter
  rcases Program.withSlotsNamed known.lowered.functions (fun _ _ made => made.name) name with
    ⟨-, none', none⟩ | ⟨g, g', made, named, named', slotted⟩
  · simp only [referenceMachine, loweredMachine, none, none']
    rfl
  · simp only [referenceMachine, loweredMachine, slotted, named']
    refine alikeBind (enterAlike known (List.mem_of_find?_eq_some named) made args 0 0) ?_
    intro f f' _ mirrors
    exact ⟨⟨g, mirrors⟩, .nil, Memory.sameRefl _ _⟩

theorem startMeets (known : Comparable c p p')
    (held : ∀ fn, p.functionNamed? name = some fn →
      Word.AllHeld Word.Stores (fn.sig.params.map Slot.type) args)
    (begins : (referenceMachine c p p').enter name args = .ok start)
    (begins' : (loweredMachine c p').enter name args = .ok start')
    (related : Related c p p' start start') (apart : start.Apart p .encoded) :
    Meeting c p p' start start' where
  related := related
  stores := by
    obtain ⟨fn, named, -, -⟩ := Machine.startOk begins
    obtain ⟨g, -, g', -, own, -, rfl⟩ := namedOwn known named
    exact Machine.storesReaches (m := referenceMachine c p p')
      known.referenceRunnable.wellFormed rfl
      (Program.withSlotsTyped known.lowered.functions (fun _ _ made => made.name) known.typed)
      named (held g own) begins (.here start)
  linked := Machine.startLinked begins
  linked' := Machine.startLinked begins'
  housed := Machine.startHoused begins'
  shallow := by
    obtain ⟨-, -, -, none⟩ := Machine.startOk begins'
    rw [none]
    exact Nat.zero_le _
  apart := apart

theorem fellAlike (meets : Meeting c p p' s s') (done : s.frame.rest = []) :
    s'.frame.rest = [] ∧
      (Outcome.failed (.trap s'.frame.fn.name none (.fellThrough s'.frame.label))).unplaced =
        (Outcome.failed (.trap s.frame.fn.name none (.fellThrough s.frame.label))).unplaced := by
  obtain ⟨fn, mirrors⟩ := meets.related.frame
  have segments := mirrors.segments
  rw [done] at segments
  generalize s'.frame.rest = rest at segments
  cases segments
  refine ⟨rfl, ?_⟩
  rw [mirrors.name, mirrors.label]

variable (known : Comparable c p p') (backed : c.registry.Backed) (linkable : Linkable c p)

include known backed linkable

theorem endsForward (ends : (referenceMachine c p p').Ends n s o)
    (apart : ∀ k t, (referenceMachine c p p').Reaches k s t → t.Apart p .encoded)
    (meets : Meeting c p p' s s') :
    ∃ k o', (loweredMachine c p').Ends k s' o' ∧ o'.unplaced = o.unplaced := by
  induction ends generalizing s' with
  | fellThrough done =>
    obtain ⟨done', fell⟩ := fellAlike meets done
    exact ⟨0, _, .fellThrough done', fell⟩
  | failed fails =>
    obtain ⟨i, after, head, stepped⟩ := fails
    have answered := stepAnswered known meets head backed linkable
    rw [stepped] at answered
    cases answered with
    | failed path fails same =>
      exact ⟨_, _, Machine.endsBehind path (.failed fails), congrArg Outcome.failed same⟩
  | finished head stepped =>
    have answered := stepAnswered known meets head backed linkable
    rw [stepped] at answered
    cases answered with
    | finished path head' stepped' =>
      exact ⟨_, _, Machine.endsBehind path (.finished head' stepped'), rfl⟩
  | running head stepped rest ih =>
    have answered := stepAnswered known meets head backed linkable
    rw [stepped] at answered
    have behind (k : Nat) (t : State) (path : (referenceMachine c p p').Reaches k _ t) :
        t.Apart p .encoded := apart _ t (.step head stepped path)
    cases answered with
    | running path related less =>
      obtain ⟨k, o', ends, same⟩ := ih behind
        (meets.onward known head stepped path related (behind 0 _ (.here _)))
      exact ⟨_, o', Machine.endsBehind path ends, same⟩

theorem endsBackward (ends : (loweredMachine c p').Ends k s' o')
    (apart : ∀ k t, (referenceMachine c p p').Reaches k s t → t.Apart p .encoded)
    (meets : Meeting c p p' s s') :
    ∃ n o, (referenceMachine c p p').Ends n s o ∧ o'.unplaced = o.unplaced := by
  -- An answer takes steps of the lowered run, or leaves less of the block to the reference run.
  induction k using Nat.strongRecOn generalizing s s' with
  | ind k shorter =>
  induction size : s.frame.rest.length using Nat.strongRecOn generalizing s with
  | ind size nearer =>
  subst size
  cases head : s.frame.rest with
  | nil =>
    obtain ⟨done', fell⟩ := fellAlike meets head
    cases ends with
    | fellThrough => exact ⟨0, _, .fellThrough head, fell⟩
    | failed fails =>
      obtain ⟨i, after, head', -⟩ := fails
      cases head'.symm.trans done'
    | finished head' | running head' => cases head'.symm.trans done'
  | cons i after =>
    have answered := stepAnswered known meets head backed linkable
    generalize stepped : (referenceMachine c p p').step s i after = made at answered
    cases answered with
    | failed path fails same =>
      obtain ⟨j, rfl, final⟩ := ends.along path
      obtain ⟨i', after', head', fails⟩ := fails
      have ahead := final.ahead head'
      rw [fails] at ahead
      obtain rfl := ahead
      exact ⟨0, _, .failed ⟨i, after, head, stepped⟩, congrArg Outcome.failed same⟩
    | finished path head' stepped' =>
      obtain ⟨j, rfl, final⟩ := ends.along path
      have ahead := final.ahead head'
      rw [stepped'] at ahead
      obtain rfl := ahead
      exact ⟨0, _, .finished head stepped, rfl⟩
    | @running taken next t path related less =>
      obtain ⟨j, rfl, final⟩ := ends.along path
      have behind (k : Nat) (t : State) (path : (referenceMachine c p p').Reaches k next t) :
          t.Apart p .encoded := apart _ t (.step head stepped path)
      have onward := meets.onward known head stepped path related (behind 0 _ (.here _))
      have rest : ∃ n o, (referenceMachine c p p').Ends n next o ∧ o'.unplaced = o.unplaced := by
        cases taken with
        | zero =>
          cases path
          exact nearer _ (less rfl) behind onward rfl
        | succ taken => exact shorter j (by omega) final behind onward
      obtain ⟨n, o, ends', same⟩ := rest
      exact ⟨n + 1, o, .running head stepped ends', same⟩

end Runs

end Lowering

end FixedIL
