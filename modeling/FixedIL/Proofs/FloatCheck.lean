import FixedIL.FloatFree
import FixedIL.Proofs.LoweredFloats

/-!
What the last check for floats sees. It reads signatures, parameters of blocks, and the types,
results and operands of instructions, and finds nothing exactly if none of them is a float. The
arguments of branches are not read. Lowering leaves no literal there, so that behind it nothing is
missed.
-/
namespace FixedIL

def Ty.floats : List Ty := [.f32, .f64]

theorem Ty.notFloat {t : Ty} : t.isFloat = false ↔ t ∉ floats := by
  cases t <;> decide

theorem Value.noFloats {vs : List Value} :
    (∀ v ∈ vs, v.isFloat = false) ↔ ∀ x, .float x ∉ vs := by
  constructor
  · intro none x member
    cases none _ member
  · intro none v member
    cases v with
    | float x => exact absurd member (none x)
    | _ => rfl

structure Instr.SeenFree (i : Instr) : Prop where
  type : i.type ∉ Ty.floats
  results : ∀ t ∈ i.results, t.type ∉ Ty.floats
  operands : ∀ x, .float x ∉ i.operands

structure Function.SeenFree (f : Function) : Prop where
  params : ∀ s ∈ f.sig.params, s.type ∉ Ty.floats
  returns : ∀ s ∈ f.sig.returns, s.type ∉ Ty.floats
  blockParams : ∀ b ∈ f.blocks, ∀ t ∈ b.params, t.type ∉ Ty.floats
  instrs : ∀ b ∈ f.blocks, ∀ i ∈ b.instrs, i.SeenFree

structure Function.FloatFree (f : Function) : Prop extends f.SeenFree where
  arguments : ∀ b ∈ f.blocks, ∀ i ∈ b.instrs, ∀ args ∈ i.branchArgs, ∀ x, .float x ∉ args

def Function.PassesFloat (f : Function) : Prop :=
  ∃ b ∈ f.blocks, ∃ i ∈ b.instrs, ∃ args ∈ i.branchArgs, ∃ x, .float x ∈ args

section Check

open WellFormed (require requireNone orElseNone)

variable {f : Function} {b : Block} {i : Instr}

theorem requireNot {α : Type} {as : List α} {p : α → Bool} {fault : Fault} :
    require (!as.any p) fault = none ↔ ∀ a ∈ as, p a = false := by
  simp [requireNone]

theorem FloatFree.instrNone : instr? i = none ↔ i.SeenFree := by
  have whole : instr? i = none ↔ i.type.isFloat = false ∧
      (∀ t ∈ i.results, t.type.isFloat = false) ∧ ∀ v ∈ i.operands, v.isFloat = false := by
    rw [instr?, orElseNone, orElseNone, requireNone, requireNot, requireNot, Bool.not_eq_true']
  simp only [whole, Value.noFloats, Ty.notFloat]
  exact ⟨fun ⟨type, results, operands⟩ => ⟨type, results, operands⟩,
    fun ⟨type, results, operands⟩ => ⟨type, results, operands⟩⟩

theorem FloatFree.blockNone {name : String} : block? name b = none ↔
    (∀ t ∈ b.params, t.type ∉ Ty.floats) ∧ ∀ i ∈ b.instrs, i.SeenFree := by
  simp only [block?, orElseNone, Option.map_eq_none_iff, requireNot, List.findSome?_eq_none_iff,
    instrNone, Ty.notFloat]

theorem floatNone : f.float? = none ↔ f.SeenFree := by
  have signature : f.sig.mentionsFloat = false ↔
      (∀ s ∈ f.sig.params, s.type ∉ Ty.floats) ∧ ∀ s ∈ f.sig.returns, s.type ∉ Ty.floats := by
    simp only [Lowering.mentionsNone, Ty.notFloat]
  have blocks : f.float? = none ↔ f.sig.mentionsFloat = false ∧ ∀ b ∈ f.blocks,
      (∀ t ∈ b.params, t.type ∉ Ty.floats) ∧ ∀ i ∈ b.instrs, i.SeenFree := by
    simp only [Function.float?, orElseNone, Option.map_eq_none_iff, requireNone,
      Bool.not_eq_true', List.findSome?_eq_none_iff, FloatFree.blockNone]
  rw [blocks, signature]
  exact ⟨fun ⟨⟨params, returns⟩, each⟩ =>
      ⟨params, returns, fun b block => (each b block).1, fun b block => (each b block).2⟩,
    fun seen => ⟨⟨seen.params, seen.returns⟩,
      fun b block => ⟨seen.blockParams b block, seen.instrs b block⟩⟩⟩

theorem floatFreeIff : f.FloatFree ↔ f.SeenFree ∧ ¬ f.PassesFloat := by
  constructor
  · rintro ⟨seen, arguments⟩
    refine ⟨seen, ?_⟩
    rintro ⟨b, block, i, instr, args, branch, x, member⟩
    exact arguments b block i instr args branch x member
  · rintro ⟨seen, passes⟩
    refine ⟨seen, fun b block i instr args branch x member => passes ?_⟩
    exact ⟨b, block, i, instr, args, branch, x, member⟩

end Check

namespace Lowering

variable {c : Config} {p p' : Program} {f' : Function}

theorem loweredPassesNone (run : (pass c).run p = .ok p') (member : f' ∈ p'.functions) :
    ¬ f'.PassesFloat := by
  obtain ⟨supported, trace⟩ := runTrace run
  have keeps := (functionsCode trace).imp fun _ _ => functionKeeps supported
  obtain ⟨f, -, kept⟩ := partner keeps.flip member
  rintro ⟨b, block, i, instr, args, branch, x, among⟩
  have code : i ∈ f'.code := List.mem_flatMap.mpr ⟨b, block, instr⟩
  exact Value.noFloats.mp ((kept.literals i code).arguments args branch) x among

end Lowering

/-- The check finds nothing exactly if no float is where it looks. What it misses is a literal that
a branch passes, and lowered programs have none. -/
theorem floatCheckExact (f : Function) :
    (f.float? = none ↔ f.SeenFree) ∧
    (f.FloatFree ↔ f.float? = none ∧ ¬ f.PassesFloat) ∧
    ∀ c p p', (Lowering.pass c).run p = .ok p' → f ∈ p'.functions →
      (f.float? = none ↔ f.FloatFree) := by
  refine ⟨floatNone, by rw [floatNone, floatFreeIff], fun c p p' run member => ?_⟩
  rw [floatNone, floatFreeIff]
  exact (and_iff_left (Lowering.loweredPassesNone run member)).symm

section Passing

def passingSource : Function where
  name := "pass"
  sig := .ofTypes [] [.i32]
  blocks := [
    ⟨"entry", [], [{ Instr.blank .br with labels := ["next"], branchArgs := [[.float 1]] }]⟩,
    ⟨"next", [⟨0, .i32⟩], [{ Instr.blank .ret with operands := [.temp 0] }]⟩]
  slots := []
  valueNames := []

def passingTarget : Function where
  name := "pass"
  sig := .ofTypes [] [.i32]
  blocks := [
    ⟨"entry", [], [{ Instr.blank .br with labels := ["next"], branchArgs := [[.int 65536]] }]⟩,
    ⟨"next", [⟨0, .i32⟩], [{ Instr.blank .ret with operands := [.temp 0] }]⟩]
  slots := []
  valueNames := []

theorem passingUnnoticed :
    (Program.WellFormed ⟨[], [passingSource]⟩ ∧ passingSource.float? = none ∧
      ¬ passingSource.FloatFree) ∧
    (Lowering.pass Lowering.squareConfig).run ⟨[], [passingSource]⟩ = .ok ⟨[], [passingTarget]⟩ ∧
      passingTarget.float? = none ∧ passingTarget.FloatFree := by
  have wellFormed : Program.WellFormed ⟨[], [passingSource]⟩ := by decide +kernel
  have unnoticed : passingSource.float? = none := by decide +kernel
  have run : (Lowering.pass Lowering.squareConfig).run ⟨[], [passingSource]⟩ =
      .ok ⟨[], [passingTarget]⟩ := okOfOption (by decide +kernel)
  have quiet : passingTarget.float? = none := by decide +kernel
  obtain ⟨-, free, -⟩ := floatCheckExact passingSource
  obtain ⟨-, -, lowered⟩ := floatCheckExact passingTarget
  refine ⟨⟨wellFormed, unnoticed, fun whole => (free.mp whole).2 ?_⟩, run, quiet,
    (lowered _ _ _ run List.mem_cons_self).mp quiet⟩
  exact ⟨_, List.mem_cons_self, _, List.mem_cons_self, _, List.mem_cons_self, _,
    List.mem_cons_self⟩

end Passing

end FixedIL
