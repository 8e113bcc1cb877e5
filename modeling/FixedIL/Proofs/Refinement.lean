import FixedIL.Proofs.MirroredRuns

/-!
Lowering refines the fixed-point reading of the source: a call of a lowered function comes to what
it comes to in the reference run, and to nothing else.
-/
namespace FixedIL

namespace Lowering

variable {c : Config} {p p' : Program} {s : State}

theorem apartUnaddressed (known : Comparable c p p') (linked : s.Linked (p.withSlotsOf p'))
    (unaddressed : ∀ f ∈ p.functions, ∀ i ∈ f.code, i.op ≠ .load ∧ i.op ≠ .store) :
    s.Apart p .encoded := by
  intro a address
  unfold Frame.address? at address
  cases head : s.frame.rest with
  | nil =>
    rw [head] at address
    cases address
  | cons i after =>
    have runs := linked.frame
    rw [head] at runs address
    obtain ⟨f, source, f', -, -, is⟩ := Program.withSlotsMem known.lowered.functions runs.fn
    have instr : i ∈ f.code := by
      have inside := runs.inside List.mem_cons_self
      rwa [is] at inside
    obtain ⟨load, store⟩ := unaddressed f source i instr
    simp only at address
    split at address
    · exact absurd ‹_› load
    · exact absurd ‹_› store
    · cases address

/-- A call comes to the same in the reference run and behind lowering, or it does not end in either.
The results are the words of the reference run, floats being their encodings; an error is the same
one, in the same function, though at another instruction. Slots that lowering adds have addresses
as well, and no load or store of the source may go to one of them. -/
theorem loweringRefines (made : Builtin.defaultRegistry = .ok c.registry)
    (known : Comparable c p p') (linkable : Linkable c p) (name : String) (args : List Word)
    (held : ∀ f, p.functionNamed? name = some f →
      Word.AllHeld Word.Stores (f.sig.params.map Slot.type) args)
    (apart : ∀ start n s, (referenceMachine c p p').enter name args = .ok start →
      (referenceMachine c p p').Reaches n start s → s.Apart p .encoded) (o : Outcome) :
    (∃ a, (referenceMachine c p p').ComesTo name args a ∧ a.unplaced = o) ↔
      ∃ a, (loweredMachine c p').ComesTo name args a ∧ a.unplaced = o := by
  have backed := Builtin.catalogBacked made
  rcases alikeCases (startsAlike known name args) with
    ⟨e, e', begins, begins', same⟩ | ⟨start, start', begins, begins', related⟩
  · have both : (Outcome.failed e').unplaced = (Outcome.failed e).unplaced :=
      congrArg Outcome.failed same
    simp only [Machine.comesRefused begins, Machine.comesRefused begins', exists_eq_left, both]
  · have meets : Meeting c p p' start start' :=
      startMeets known held begins begins' related (apart start 0 start begins (.here start))
    have stays (k : Nat) (t : State) (path : (referenceMachine c p p').Reaches k start t) :
        t.Apart p .encoded := apart start k t begins path
    simp only [Machine.comesEnds begins, Machine.comesEnds begins']
    constructor
    · rintro ⟨a, ⟨n, ends⟩, rfl⟩
      obtain ⟨k, a', ends', same⟩ := endsForward known backed linkable ends stays meets
      exact ⟨a', ⟨k, ends'⟩, same⟩
    · rintro ⟨a', ⟨n, ends⟩, rfl⟩
      obtain ⟨k, a, ends', same⟩ := endsBackward known backed linkable ends stays meets
      exact ⟨a, ⟨k, ends'⟩, same.symm⟩

section Glow

open Emit

def glowConfig : Config :=
  ⟨Builtin.defaultRegistry.toOption.getD .empty, .riscv32Ilp32, .fixed16x16⟩

theorem glowCatalog (made : Builtin.defaultRegistry.toOption.isSome = true) :
    Builtin.defaultRegistry = .ok glowConfig.registry := by
  obtain ⟨r, is⟩ := Option.isSome_iff_exists.mp made
  have own : glowConfig.registry = r := by
    unfold glowConfig
    simp only [is, Option.getD_some]
  rw [own]
  exact okOfOption is

def glowSource : Program := ⟨[⟨"qs_hue2rgb_f32", .ofTypes [.f32] [.f32, .f32, .f32]⟩], [{
  name := "glow"
  sig := .ofTypes [.f32] [.f32]
  blocks := [⟨"entry", [⟨0, .f32⟩], [
    { Instr.blank .call with
      results := [⟨1, .f32⟩, ⟨2, .f32⟩, ⟨3, .f32⟩], operands := [.temp 0],
      callee := "qs_hue2rgb_f32" },
    { Instr.blank .tofixed with type := .i32, results := [⟨4, .i32⟩], operands := [.temp 1] },
    { Instr.blank .fromfixed with type := .f32, results := [⟨5, .f32⟩], operands := [.temp 4] },
    { Instr.blank (.float .add) with
      type := .f32, results := [⟨6, .f32⟩], operands := [.temp 5, .temp 2] },
    { Instr.blank .ret with operands := [.temp 6] }]⟩]
  slots := []
  valueNames := [] }]⟩

def glowLowered : Program where
  externs := [⟨"qs_hue2rgb_q32", ⟨[⟨.ptr, .structReturn⟩, ⟨.i32, .normal⟩], []⟩⟩]
  functions := [{
    name := "glow"
    sig := .ofTypes [.i32] [.i32]
    blocks := [⟨"entry", [⟨0, .i32⟩], [
      computing .stackaddr .ptr [.int 0, .int 0] 7 .unknown,
      calling "qs_hue2rgb_q32" [] [.temp 7, .temp 0] .unknown,
      computing .load .i32 [.temp 7, .int 0] 1 .unknown,
      computing .load .i32 [.temp 7, .int 4] 2 .unknown,
      computing .load .i32 [.temp 7, .int 8] 3 .unknown,
      computing (.int .add) .i32 [.temp 1, .temp 2] 6 .unknown,
      { Instr.blank .ret with operands := [.temp 6] }]⟩]
    slots := [⟨12, 4⟩]
    valueNames := [] }]

-- All that the catalog decides is asked for at once, so that it is read only once.
theorem glowRead : Builtin.defaultRegistry.toOption.isSome = true ∧
    ((pass glowConfig).run glowSource).toOption = some glowLowered ∧
    (∀ e ∈ glowSource.externs, ∀ hit ∈ glowConfig.registry.findSymbol? e.name,
      e.sig.mapTypes Ty.stored = hit.descriptor.prototype.flatten .fixedPoint) ∧
    (∀ i ∈ callsOf glowSource.code, ∀ e ∈ redirect? glowConfig glowSource i.callee,
      glowSource.functionNamed? e.name = none ∧
        meaning? glowConfig glowSource e.name = some e.sig) ∧
    ((referenceMachine glowConfig glowSource glowLowered).runFunction (.ofNat 5) "glow"
      [40000]).outcome = .returned [22144] := by decide +kernel

theorem glowComparable : Comparable glowConfig glowSource glowLowered where
  run := okOfOption glowRead.2.1
  runnable := ⟨by decide +kernel, by decide +kernel, by decide +kernel⟩
  roomy := by
    intro f source f' target _
    cases List.mem_singleton.mp source
    cases List.mem_singleton.mp target
    exact ⟨by decide +kernel, by decide +kernel⟩
  dominated := by
    intro f source
    cases List.mem_singleton.mp source
    exact Function.straightDominated rfl (by decide +kernel)
  typed := by decide +kernel
  widths := by
    have plain : ∀ f ∈ glowSource.functions, ∀ i ∈ f.code, i.op.readsTypes = false := by
      decide +kernel
    intro f source i instr
    have reads := plain f source i instr
    refine Instr.widthKept (fun is => ?_) fun cmp is => ?_ <;>
    · rw [is] at reads
      cases reads
  declares e member hit := glowRead.2.2.1 e member hit
  few := by decide +kernel

theorem glowComesAlike :
    (referenceMachine glowConfig glowSource glowLowered).ComesTo "glow" [40000] (.returned [22144]) ∧
    (loweredMachine glowConfig glowLowered).ComesTo "glow" [40000] (.returned [22144]) := by
  obtain ⟨made, -, -, linkable, returns⟩ := glowRead
  have unaddressed : ∀ f ∈ glowSource.functions, ∀ i ∈ f.code, i.op ≠ .load ∧ i.op ≠ .store := by
    decide +kernel
  have held : ∀ f ∈ glowSource.functions, ∀ pair ∈ (f.sig.params.map Slot.type).zip [40000],
      Word.Fits pair.1.stored pair.2 := by decide +kernel
  have comes := Machine.comesReturned (by decide) returns
  have alike := loweringRefines (glowCatalog made) glowComparable
    (fun i member e found => linkable i member e found) "glow" [40000]
    (fun f named => held f (List.mem_of_find?_eq_some named))
    (fun start n s begins path => apartUnaddressed glowComparable
      (Machine.linkedReaches (m := referenceMachine glowConfig glowSource glowLowered)
        (Machine.startLinked begins) path) unaddressed) (.returned [22144])
  obtain ⟨a, comes', same⟩ := alike.mp ⟨_, comes, rfl⟩
  cases a with
  | returned words =>
    cases same
    exact ⟨comes, comes'⟩
  | failed e => cases same

end Glow

end Lowering
end FixedIL
