import FixedIL.Proofs.HeldWords

/-!
Registers that hold words of their temporaries' types. What an instruction computes fits, unless it
leaves more of a number than its type holds.
-/
namespace FixedIL

def Value.Fits (t : Ty) : Value → Prop
  | .int n => (Word.ofInt64 n).Fits t
  | .float _ => t.isInteger = false
  | _ => True

instance (t : Ty) (v : Value) : Decidable (v.Fits t) :=
  match v with
  | .int n => inferInstanceAs (Decidable ((Word.ofInt64 n).Fits t))
  | .float _ => inferInstanceAs (Decidable (t.isInteger = false))
  | .temp _ | .bool _ | .null => inferInstanceAs (Decidable True)

def Program.LiteralsFit (p : Program) : Prop :=
  ∀ f ∈ p.functions, ∀ i ∈ f.code, ∀ flow ∈ i.flows p f, flow.1.Fits flow.2

instance (p : Program) : Decidable p.LiteralsFit := by unfold Program.LiteralsFit; infer_instance

def Word.FitAll (types : List Ty) (words : List Word) : Prop :=
  ∀ pair ∈ types.zip words, Word.Fits pair.1 pair.2

instance (types : List Ty) (words : List Word) : Decidable (Word.FitAll types words) := by
  unfold Word.FitAll; infer_instance

def Frame.Normal (f : Frame) : Prop :=
  ∀ t ∈ f.fn.temps, ∀ w, f.regs[t.id.toNat]? = some w → w.Fits t.type

def State.Normal (s : State) : Prop := ∀ f ∈ s.frame :: s.callers, f.Normal

theorem Value.fitsHeld {v : Value} {t : Ty} (literal : v.Fits t) (plain : v.isTemp = false)
    {d : FloatDomain} {g : Frame} {w : Word} (held : g.value? d v = some w) : w.Fits t := by
  cases v with
  | temp id => cases plain
  | int n =>
    cases held
    exact literal
  | bool b =>
    cases held
    exact Word.fitsBool t b
  | float x =>
    refine Word.fitsWide ?_
    have noInteger : t.isInteger = false := literal
    cases t <;> first | rfl | cases noInteger
  | null =>
    cases held
    exact Word.fitsZero t

namespace Machine

variable {m : Machine} {s start next final : State} {i : Instr} {after : List Instr} {n : Nat}
  {name : String} {args words : List Word} {w : Word} {memory : Memory}

theorem literalsKeep (literals : m.program.LiteralsFit) : m.Keeps fun t w => w.Fits t where
  blank := Word.fitsZero
  loads := m.domain.loadFits
  literals f member i code flow among plain _ _ held :=
    Value.fitsHeld (literals f member i code flow among) plain held

theorem accessFits (domain : m.domain = .ieee) (cut : i.op.uncut i.type = false)
    (arith : ∀ op, i.op = .float op → i.type.isFloat = true)
    (arms : i.op = .select → ∀ a ∈ words.drop 1, a.Fits i.type)
    (access : m.access s i words = .ok (some w, memory)) : w.Fits i.type := by
  rcases accessMakes access with op | ⟨bytes, rfl⟩ | computed
  · rw [op] at cut
    exact Word.fitsWide cut
  · exact m.domain.loadFits _ _
  · rw [domain] at computed
    exact FloatDomain.computeFits cut arith arms computed

theorem uncutFrame (uncut : i.op.uncut i.type = true)
    (stepped : m.step s i after = .ok (.running next)) : next.frame.fn = s.frame.fn := by
  cases stepMoves stepped with
  | keep => rfl
  | define op values access results assigned => exact (Frame.assignKeeps assigned).1
  | enter op => simp [op, Opcode.uncut] at uncut
  | native op => simp [op, Opcode.uncut] at uncut
  | ret op => simp [op, Opcode.uncut] at uncut
  | jump op => rcases op with op | op <;> simp [op, Opcode.uncut] at uncut

section Steps

variable (wellFormed : m.program.WellFormed) (literals : m.program.LiteralsFit)

include wellFormed literals

theorem computedFits {P : List Instr → Prop} {t : Temp} {rest : List Temp}
    (domain : m.domain = .ieee) (op : i.op.category ≠ .call ∧ i.op.category ≠ .control)
    (normal : s.frame.Normal) (runs : s.frame.Runs m.program P (i :: after))
    (values : s.frame.values? m.domain (i.operands.take i.op.minOperands) = some words)
    (access : m.access s i words = .ok (some w, memory)) (results : i.results = t :: rest)
    (cut : i.op.uncut i.type = false) : w.Fits t.type := by
  have sound := runs.sound wellFormed List.mem_cons_self
  obtain ⟨-, type⟩ := WellFormed.definedType sound op (results ▸ List.mem_cons_self)
  rw [type]
  exact accessFits domain cut (fun _ => WellFormed.floatArith sound)
    (fun op => selectArmsHeld wellFormed (literalsKeep literals) normal runs op values) access

theorem normalStep (domain : m.domain = .ieee) (linked : s.Linked m.program) (normal : s.Normal)
    (head : s.frame.rest = i :: after) (stepped : m.step s i after = .ok (.running next))
    (cut : i.op.uncut i.type = true → ∀ t ∈ i.results, ∀ w,
      next.frame.regs[t.id.toNat]? = some w → w.Fits t.type) : next.Normal := by
  have runs := head ▸ linked.frame
  have own := normal s.frame List.mem_cons_self
  refine heldStep wellFormed (literalsKeep literals) linked normal head stepped ?_
  intro words w memory t rest op values access results held
  cases uncut : i.op.uncut i.type with
  | true => exact cut uncut t (results ▸ List.mem_cons_self) w held
  | false => exact computedFits wellFormed literals domain op own runs values access results uncut

/-- Every register of a run is normal if and only if none of the instructions that do not cut has
left more of a number than its type holds; so all registers are normal where there is none. -/
theorem registersNormal (domain : m.domain = .ieee) {fn : Function}
    (named : m.program.functionNamed? name = some fn)
    (fit : Word.FitAll (fn.sig.params.map Slot.type) args) (begins : m.enter name args = .ok start) :
    ((∀ n s, m.Reaches n start s → s.Normal) ↔
      ∀ n s i after next, m.Reaches n start s → s.frame.rest = i :: after →
        m.step s i after = .ok (.running next) → i.op.uncut i.type = true →
        ∀ t ∈ i.results, ∀ w, next.frame.regs[t.id.toNat]? = some w → w.Fits t.type) ∧
    ((∀ i ∈ m.program.code, i.op.uncut i.type = false) → ∀ n s, m.Reaches n start s → s.Normal) := by
  have linked := startLinked begins
  have first : start.Normal := startHolds wellFormed Word.fitsZero named fit begins
  have reached (cut : ∀ n s i after next, m.Reaches n start s → s.frame.rest = i :: after →
      m.step s i after = .ok (.running next) → i.op.uncut i.type = true →
      ∀ t ∈ i.results, ∀ w, next.frame.regs[t.id.toNat]? = some w → w.Fits t.type) (n : Nat)
      (s : State) (path : m.Reaches n start s) : s.Normal :=
    reachesKeeps path first fun k mid i after next way head stepped sofar =>
      normalStep wellFormed literals domain (linkedReaches linked way) sofar head stepped
        (cut k mid i after next way head stepped)
  refine ⟨⟨fun normal n s i after next path head stepped uncut t result w held => ?_, reached⟩,
    fun cut => reached fun n s i after next path head stepped uncut => ?_⟩
  · have runs := head ▸ (linkedReaches linked path).frame
    have own := normal (n + 1) next (reachesSnoc path head stepped) _ List.mem_cons_self
    have declared : t ∈ next.frame.fn.temps := by
      rw [uncutFrame uncut stepped]
      exact runs.declared List.mem_cons_self t result
    exact own t declared w held
  · have runs := head ▸ (linkedReaches linked path).frame
    have inside : i ∈ m.program.code :=
      List.mem_flatMap.mpr ⟨_, runs.fn, runs.inside List.mem_cons_self⟩
    rw [cut i inside] at uncut
    cases uncut

end Steps

def signInstr : Instr :=
  { Instr.blank .fptosi with type := .i1, results := [⟨1, .i1⟩], operands := [.temp 0] }

def returnSign : Instr := { Instr.blank .ret with operands := [.temp 1] }

def signFunction : Function where
  name := "sign"
  sig := .ofTypes [.f64] [.i1]
  blocks := [⟨"entry", [⟨0, .f64⟩], [signInstr, returnSign]⟩]
  slots := []
  valueNames := []

def signMachine : Machine := ⟨⟨[], [signFunction]⟩, none, .ieee⟩

def signState (truth : Word) (rest : List Instr) : State :=
  ⟨⟨signFunction, "entry", rest, #[0xbff0000000000000, truth], 0⟩, [], .empty⟩

theorem quotientsNormalSignNot :
    (quotientMachine.program.WellFormed ∧ quotientMachine.program.LiteralsFit ∧
      Word.FitAll (guardedFunction.sig.params.map Slot.type) [7, 2] ∧
      ∃ start, quotientMachine.enter "guarded" [7, 2] = .ok start ∧
        ∀ n s, quotientMachine.Reaches n start s → s.Normal) ∧
    (signMachine.program.WellFormed ∧ signMachine.program.LiteralsFit ∧
      Word.FitAll (signFunction.sig.params.map Slot.type) [0xbff0000000000000] ∧
      signMachine.enter "sign" [0xbff0000000000000] = .ok (signState 0 [signInstr, returnSign]) ∧
      ¬ ∀ n s, signMachine.Reaches n (signState 0 [signInstr, returnSign]) s → s.Normal) := by
  have quotients : quotientMachine.program.WellFormed ∧ quotientMachine.program.LiteralsFit := by
    decide +kernel
  have signs : signMachine.program.WellFormed ∧ signMachine.program.LiteralsFit := by decide +kernel
  have numbers : Word.FitAll (guardedFunction.sig.params.map Slot.type) [7, 2] := by decide
  have float : Word.FitAll (signFunction.sig.params.map Slot.type) [0xbff0000000000000] := by decide
  have guarded : quotientMachine.program.functionNamed? "guarded" = some guardedFunction := by
    decide +kernel
  have sign : signMachine.program.functionNamed? "sign" = some signFunction := by decide +kernel
  have begins : signMachine.enter "sign" [0xbff0000000000000] =
      .ok (signState 0 [signInstr, returnSign]) := rfl
  have stepped : signMachine.step (signState 0 [signInstr, returnSign]) signInstr [returnSign] =
      .ok (.running (signState 0xffffffffffffffff [returnSign])) := okOfOption (by decide +kernel)
  refine ⟨⟨quotients.1, quotients.2, numbers, _, rfl, ?_⟩, signs.1, signs.2, float, begins,
    fun normal => ?_⟩
  · exact (registersNormal quotients.1 quotients.2 rfl guarded numbers rfl).2 (by decide +kernel)
  · have cut := (registersNormal signs.1 signs.2 rfl sign float begins).1.mp normal
    have truth := cut 0 _ _ _ _ (.here _) rfl stepped rfl _ List.mem_cons_self 0xffffffffffffffff rfl
    exact absurd truth (by decide)

end Machine
end FixedIL