import FixedIL.Proofs.Definitions
import FixedIL.Proofs.PassRuns

/-!
What one function leaves behind for the next. All functions of a program are written through one
builder: its counter begins above the parameters that a function has before it has code, and its
place is still the last one of the function before. Neither is seen, for the counter is moved above
all of the function and every instruction sets its own place, so that a pass may begin each function
with a blank state.
-/
namespace FixedIL

def PassState.Left (bound : TempId) (s s' : PassState) : Prop :=
  (∃ next loc code, s' = { s with emission := ⟨next, loc, s.emission.slots, code⟩ }) ∧
    s.emission.nextTemp ≤ bound ∧ s'.emission.nextTemp ≤ bound

def PassState.Replaced (s s' : PassState) : Prop :=
  ∃ loc code, s' = { s with emission := ⟨s.emission.nextTemp, loc, s.emission.slots, code⟩ }

namespace PassM

variable {α β : Type} {R R' R'' : PassState → PassState → Prop} {x : PassM α} {g : α → PassM β}

/-- From states that are related, it fails alike or comes to the same, in states that are related. -/
def Carries (R R' : PassState → PassState → Prop) (x : PassM α) : Prop :=
  ∀ s s', R s s' →
    (∃ e t t', x.run.run s = (.error e, t) ∧ x.run.run s' = (.error e, t')) ∨
    ∃ a t t', x.run.run s = (.ok a, t) ∧ x.run.run s' = (.ok a, t') ∧ R' t t'

theorem carriesPure {a : α} : Carries R R (pure a : PassM α) :=
  fun s s' related => .inr ⟨a, s, s', rfl, rfl, related⟩

theorem carriesFail {e : LoweringError} : Carries R R' (fail e : PassM α) :=
  fun s s' _ => .inl ⟨e, s, s', rfl, rfl⟩

theorem carriesModify {f : PassState → PassState}
    (kept : ∀ s s', R s s' → R' (f s) (f s')) : Carries R R' (modify f : PassM PUnit) :=
  fun s s' related => .inr ⟨⟨⟩, f s, f s', rfl, rfl, kept s s' related⟩

theorem carriesBind (first : Carries R R' x) (second : ∀ a, Carries R' R'' (g a)) :
    Carries R R'' (x >>= g) := by
  intro s s' related
  simp only [ExceptT.run_bind, StateT.run_bind]
  rcases first s s' related with ⟨e, t, t', here, there⟩ | ⟨a, t, t', here, there, related'⟩
  · rw [here, there]
    exact .inl ⟨e, t, t', rfl, rfl⟩
  · rw [here, there]
    exact second a t t' related'

theorem carriesRead {g : PassState → PassM β} (same : ∀ s s', R s s' → g s' = g s)
    (each : ∀ s, Carries R R' (g s)) : Carries R R' ((get : PassM PassState) >>= g) := by
  intro s s' related
  change (∃ e t t', (g s).run.run s = _ ∧ (g s').run.run s' = _) ∨
    ∃ a t t', (g s).run.run s = _ ∧ (g s').run.run s' = _ ∧ _
  rw [same s s' related]
  exact each s s s' related

theorem carriesMapM {γ : Type} {h : γ → PassM β} (each : ∀ c, Carries R R (h c)) (cs : List γ) :
    Carries R R (cs.mapM h) := by
  induction cs with
  | nil => exact carriesPure
  | cons c rest ih =>
    rw [List.mapM_cons]
    exact carriesBind (each c) fun b => carriesBind ih fun bs => carriesPure

end PassM

namespace Pass

open PassM

variable {pass : Pass} {p : Program} {f : Function} {bound : TempId} {site : Site}

theorem carriesAlter (alter : PassState → PassState)
    (apart : ∀ (s : PassState) (e : Emission),
      alter { s with emission := e } = { alter s with emission := e }) :
    Carries (PassState.Left bound) (PassState.Left bound) (modify alter : PassM PUnit) := by
  refine carriesModify ?_
  rintro s s' ⟨⟨next, loc, code, rfl⟩, low, low'⟩
  have own : (alter s).emission = s.emission :=
    (congrArg PassState.emission (apart s s.emission) :)
  refine ⟨⟨next, loc, code, ?_⟩, ?_, ?_⟩
  · rw [apart s ⟨next, loc, s.emission.slots, code⟩, own]
  · rw [own]
    exact low
  · rw [apart s ⟨next, loc, s.emission.slots, code⟩]
    exact low'

theorem paramsCarry (b : Block) (ts : List Temp) :
    Carries (PassState.Left bound) (PassState.Left bound) (defineParams f b ts) := by
  induction ts with
  | nil => exact carriesPure
  | cons t rest ih =>
    refine carriesRead (fun s s' left => ?_) fun s => ?_
    · obtain ⟨⟨next, loc, code, rfl⟩, -⟩ := left
      rfl
    · split
      · exact carriesFail
      · exact carriesBind (carriesAlter (·.mapValue t.id (.temp t.id)) fun _ _ => rfl) fun _ => ih

theorem blocksCarry (blocks : List Block) :
    Carries (PassState.Left bound) (PassState.Left bound) (openBlocks f blocks) := by
  induction blocks with
  | nil => exact carriesPure
  | cons b rest ih =>
    refine carriesBind (paramsCarry b b.params) fun _ => ?_
    exact carriesBind (carriesAlter (·.mapLabel b.label b.label) fun _ _ => rfl) fun _ => ih

theorem slotsCarry : Carries (PassState.Left bound) (PassState.Left bound) (openSlots f) := by
  have apart (ks : List Nat) (s : PassState) (e : Emission) :
      ks.foldl (fun s k => s.mapSlot k.toUInt32 k.toUInt32) { s with emission := e } =
        { ks.foldl (fun s k => s.mapSlot k.toUInt32 k.toUInt32) s with emission := e } := by
    induction ks generalizing s with
    | nil => rfl
    | cons k rest ih => exact ih (s.mapSlot k.toUInt32 k.toUInt32)
  refine carriesBind (carriesAlter _ (apart (List.range f.slots.length))) fun _ s s' left => ?_
  obtain ⟨⟨next, loc, code, rfl⟩, low, low'⟩ := left
  exact .inr ⟨⟨⟩, _, _, rfl, rfl, ⟨next, loc, code, rfl⟩, low, low'⟩

theorem reservedExact {e : Emission} (low : e.nextTemp ≤ bound) :
    ((Emit.reserveBelow bound).run e).2 = { e with nextTemp := bound } := by
  change (if e.nextTemp < bound then { e with nextTemp := bound } else e) = _
  split
  · rfl
  · rename_i reached
    rw [← UInt32.le_antisymm low (UInt32.not_lt.mp reached)]

theorem reserveCarries :
    Carries (PassState.Left bound) PassState.Replaced (emit (Emit.reserveBelow bound)) := by
  rintro s s' ⟨⟨next, loc, code, rfl⟩, low, low'⟩
  have given (s : PassState) (low : s.emission.nextTemp ≤ bound) :
      (emit (Emit.reserveBelow bound)).run.run s =
        (.ok (), { s with emission := { s.emission with nextTemp := bound } }) := by
    change (Except.ok (), { s with emission := ((Emit.reserveBelow bound).run s.emission).2 }) = _
    rw [reservedExact low]
  exact .inr ⟨(), _, _, given s low, given _ low', loc, code, rfl⟩

theorem blockCarries (b : Block) :
    Carries PassState.Replaced PassState.Replaced (pass.block site b) := by
  rintro s s' ⟨loc, code, rfl⟩
  obtain ⟨label, params, instrs⟩ := b
  cases instrs with
  | nil => exact .inr ⟨_, _, _, rfl, rfl, loc, [], rfl⟩
  | cons i rest =>
    have same : (pass.block site ⟨label, params, i :: rest⟩).run.run
        { s with emission := ⟨s.emission.nextTemp, loc, s.emission.slots, code⟩ } =
      (pass.block site ⟨label, params, i :: rest⟩).run.run s := rfl
    rw [same]
    rcases (pass.block site ⟨label, params, i :: rest⟩).run.run s with ⟨e | made, t⟩
    · exact .inl ⟨e, t, t, rfl, rfl⟩
    · exact .inr ⟨made, t, t, rfl, rfl, t.emission.loc, t.emission.code, rfl⟩

theorem resolveEmission (s : PassState) (e : Emission) (t : Encoding) (hops : Nat) :
    resolve { s with emission := e } t hops = resolve s t hops := by
  induction hops with
  | zero => rfl
  | succ hops ih =>
    funext v
    have operand : PassState.operand { s with emission := e } t v = s.operand t v := by
      cases v <;> rfl
    rw [resolve, resolve, operand, ih]

theorem functionCarries (pass : Pass) (p : Program) (f : Function) (sig : Signature) :
    Carries (PassState.Left f.nextTemp) PassState.Replaced (pass.function p f sig) := by
  refine carriesBind (blocksCarry f.blocks) fun _ => carriesBind slotsCarry fun _ => ?_
  refine carriesBind reserveCarries fun _ => carriesBind (carriesMapM blockCarries f.blocks) ?_
  refine fun blocks => carriesRead (fun s s' replaced => ?_) fun s => carriesPure
  obtain ⟨loc, code, rfl⟩ := replaced
  have block : resolveBlock { s with emission := ⟨s.emission.nextTemp, loc, s.emission.slots, code⟩ }
      pass.encoding f.nextTemp.toNat = resolveBlock s pass.encoding f.nextTemp.toNat := by
    funext b
    unfold resolveBlock resolveInstr
    rw [resolveEmission]
  rw [block]

def openedTemp (f : Function) : TempId :=
  Function.nextTemp { f with blocks := f.blocks.map fun b => { b with instrs := [] } }

theorem openedBelow (f : Function) : openedTemp f ≤ f.nextTemp := by
  have below (ts : List Temp) (start : TempId) (low : start.toNat ≤ f.nextTemp.toNat)
      (among : ∀ t ∈ ts, t ∈ f.temps) :
      (ts.foldl (fun next t => max next (t.id + 1)) start).toNat ≤ f.nextTemp.toNat := by
    induction ts generalizing start with
    | nil => exact low
    | cons t rest ih =>
      obtain ⟨first, others⟩ := List.forall_mem_cons.mp among
      refine ih (max start (t.id + 1)) ?_ others
      rw [Function.maxCounts rfl rfl]
      exact Nat.max_le.mpr ⟨low, Function.tempBelowMax first _⟩
  refine UInt32.le_iff_toNat_le.mpr (below _ _ (Function.startBelowMax _ _) fun t member => ?_)
  obtain ⟨b, block, param⟩ := List.mem_flatMap.mp member
  obtain ⟨own, source, rfl⟩ := List.mem_map.mp block
  exact List.mem_flatMap.mpr ⟨own, source, by simpa [Block.temps] using Or.inl param⟩

def runFunctionBehind (pass : Pass) (p : Program) (loc : Loc) (code : List Instr)
    (externs : List Extern) (f : Function) : Except LoweringError (Function × List Extern) :=
  match (pass.function p f (pass.sigFor p f)).run.run
    { PassState.blank ⟨openedTemp f, loc, [], code⟩ with externs := externs } with
  | (.ok f', s) => .ok (f', s.externs)
  | (.error e, _) => .error e

theorem leftUnseen (loc : Loc) (code : List Instr) (externs : List Extern) :
    pass.runFunctionBehind p loc code externs f = pass.runFunction p externs f := by
  have left : (begun externs).Left f.nextTemp
      { PassState.blank ⟨openedTemp f, loc, [], code⟩ with externs := externs } :=
    ⟨⟨_, loc, code, rfl⟩, UInt32.zero_le, openedBelow f⟩
  have carried := functionCarries pass p f (pass.sigFor p f) _ _ left
  rcases carried with ⟨e, t, t', here, there⟩ | ⟨made, t, t', here, there, loc', code', rfl⟩
  all_goals
    unfold sigFor begun at here
    rw [runFunctionBehind, there, runFunction, here]

end Pass
end FixedIL
