import FixedIL.Proofs.Definitions
import Mathlib.Data.List.Nodup

/-!
What the checks of a function say of its code. A block goes on up to its only terminator,
branches give every target the arguments that it takes, and calls and returns have as many
values as the signature. The names of a program are distinct.
-/
namespace FixedIL

inductive Closed : List Instr → Prop where
  | last {i : Instr} (ends : i.isTerminator = true) : Closed [i]
  | next {i : Instr} {rest : List Instr} (plain : i.isTerminator = false) (tail : Closed rest) :
      Closed (i :: rest)

theorem Closed.tail {i : Instr} {rest : List Instr} (closed : Closed (i :: rest))
    (plain : i.isTerminator = false) : Closed rest := by
  cases closed with
  | last ends => rw [plain] at ends; cases ends
  | next _ tail => exact tail

theorem Closed.nonempty {code : List Instr} (closed : Closed code) :
    ∃ i after, code = i :: after := by
  cases closed with
  | last ends => exact ⟨_, _, rfl⟩
  | next plain tail => exact ⟨_, _, rfl⟩

namespace WellFormed

variable {p : Program} {f : Function} {b : Block} {i : Instr}

theorem instrsClosed {types : List Temp} {label : String} {is : List Instr}
    (sound : instrs? p f types label is = none)
    (ends : is.getLast?.any Instr.isTerminator = true) : Closed is := by
  induction is with
  | nil => cases ends
  | cons i rest ih =>
    obtain ⟨head, tail⟩ := orElseNone.mp sound
    cases rest with
    | nil => exact .last ends
    | cons j rest =>
      have plain := requireNone.mp (orElseNone.mp (Option.map_eq_none_iff.mp head)).1
      exact .next (by simpa using plain) (ih tail (by simpa using ends))

theorem blockClosed (sound : f.violation? p = none) (block : b ∈ f.blocks) : Closed b.instrs := by
  obtain ⟨-, rest⟩ := orElseNone.mp sound
  have checks := List.findSome?_eq_none_iff.mp (orElseNone.mp rest).2 b block
  obtain ⟨ends, instrs⟩ := orElseNone.mp checks
  exact instrsClosed instrs (requireNone.mp (Option.map_eq_none_iff.mp ends))

theorem entryParams (sound : f.violation? p = none) :
    ∃ entry rest, f.blocks = entry :: rest ∧ entry.params.length = f.sig.params.length := by
  have header := Option.map_eq_none_iff.mp (orElseNone.mp sound).1
  unfold header? at header
  split at header
  · cases header
  · rename_i entry rest blocks
    exact ⟨entry, rest, blocks, of_decide_eq_true (requireNone.mp (orElseNone.mp header).1)⟩

theorem entryTypes (sound : f.violation? p = none) {entry : Block} {rest : List Block}
    (blocks : f.blocks = entry :: rest) :
    entry.params.map Temp.type = f.sig.params.map Slot.type := by
  have header := Option.map_eq_none_iff.mp (orElseNone.mp sound).1
  simp only [header?, blocks, orElseNone] at header
  obtain ⟨count, types, -⟩ := header
  have length : entry.params.length = f.sig.params.length := of_decide_eq_true (requireNone.mp count)
  have each := List.findSome?_eq_none_iff.mp types
  refine List.ext_getElem (by simpa using length) fun k inside inside' => ?_
  rw [List.length_map] at inside inside'
  have place : ((entry.params[k], f.sig.params[k]), k) ∈ (entry.params.zip f.sig.params).zipIdx := by
    rw [List.mem_zipIdx_iff_getElem?]
    exact List.getElem?_zip_eq_some.mpr
      ⟨List.getElem?_eq_getElem inside, List.getElem?_eq_getElem inside'⟩
  simpa using requireNone.mp (each _ place)

section Instructions

variable (sound : instr? p f f.temps i = none)

include sound

theorem operandAmongTemps {id : TempId} (member : .temp id ∈ i.operands) :
    ∃ t ∈ f.temps, t.id = id := by
  simp only [instr?, orElseNone] at sound
  exact undefinedNone sound.2.2.1 member

theorem argumentAmongTemps {args : List Value} {id : TempId} (branch : args ∈ i.branchArgs)
    (member : .temp id ∈ args) : ∃ t ∈ f.temps, t.id = id := by
  simp only [instr?, orElseNone] at sound
  exact undefinedNone sound.2.2.2.1 (List.mem_flatten.mpr ⟨args, branch, member⟩)

theorem branchTargets (op : i.op = .br ∨ i.op = .cbr) :
    i.labels.length = (if i.op = .br then 1 else 2) ∧ i.branchArgs.length = i.labels.length ∧
      ∀ label args, (label, args) ∈ i.labels.zip i.branchArgs →
        ∃ b, f.blockNamed? label = some b ∧ b.params.length = args.length := by
  simp only [instr?, orElseNone] at sound
  obtain ⟨-, -, -, -, branch⟩ := sound
  have checks : i.labels.length = (if i.op = .br then 1 else 2) ∧ branch? f f.temps i = none := by
    rcases op with op | op <;>
    · simp only [op, orElseNone] at branch ⊢
      exact ⟨of_decide_eq_true (requireNone.mp branch.1), branch.2⟩
  obtain ⟨targets, branch⟩ := checks
  obtain ⟨lists, each⟩ := orElseNone.mp branch
  refine ⟨targets, of_decide_eq_true (requireNone.mp lists), fun label args member => ?_⟩
  have here := List.findSome?_eq_none_iff.mp each (label, args) member
  cases named : f.blockNamed? label with
  | none => simp [named] at here
  | some b =>
    simp only [named, orElseNone] at here
    exact ⟨b, rfl, of_decide_eq_true (requireNone.mp here.1)⟩

theorem returnCount (op : i.op = .ret) : i.operands.length = f.sig.returns.length := by
  simp only [instr?, op, orElseNone] at sound
  obtain ⟨-, -, -, -, values⟩ := sound
  exact of_decide_eq_true (requireNone.mp (orElseNone.mp values).1)

theorem callCounts (op : i.op = .call) : ∃ sig, p.calleeSig? i.callee = some sig ∧
    sig.params.length = i.operands.length ∧ sig.returns.length = i.results.length := by
  simp only [instr?, op, orElseNone] at sound
  obtain ⟨-, -, -, -, call⟩ := sound
  unfold call? at call
  split at call
  · cases call
  · rename_i sig resolved
    obtain ⟨args, rest⟩ := orElseNone.mp call
    exact ⟨sig, resolved, of_decide_eq_true (requireNone.mp args),
      of_decide_eq_true (requireNone.mp (orElseNone.mp rest).1)⟩

theorem callTypes (op : i.op = .call) : ∃ sig, p.calleeSig? i.callee = some sig ∧
    i.results.map Temp.type = sig.returnTypes := by
  simp only [instr?, op, orElseNone] at sound
  obtain ⟨-, -, -, -, call⟩ := sound
  unfold call? at call
  split at call
  · cases call
  · rename_i sig resolved
    simp only [orElseNone, requireNone, decide_eq_true_eq] at call
    obtain ⟨-, count, -, types⟩ := call
    have results : (i.results.zip sig.returns).map Prod.fst = i.results :=
      List.map_fst_zip (Nat.le_of_eq count.symm)
    have returns : (i.results.zip sig.returns).map Prod.snd = sig.returns :=
      List.map_snd_zip (Nat.le_of_eq count)
    have same : (i.results.zip sig.returns).map (fun r => r.1.type) =
        (i.results.zip sig.returns).map (fun r => r.2.type) :=
      List.map_congr_left fun r pair => by simpa using List.all_eq_true.mp types r pair
    refine ⟨sig, resolved, ?_⟩
    rwa [← Function.comp_def, ← Function.comp_def, ← List.map_map, ← List.map_map, results,
      returns] at same

theorem slotNumber (op : i.op = .stackaddr) : ∃ slot offset n, i.operands = [slot, offset] ∧
    slot.intLiteral? = some n ∧ 0 ≤ n.toInt ∧ n.toInt < f.slots.length := by
  obtain ⟨slot, offset, operands⟩ : ∃ slot offset, i.operands = [slot, offset] := by
    have count := operandCount sound (by rw [op]; rfl)
    rw [op] at count
    match operands : i.operands, count with
    | [slot, offset], _ => exact ⟨slot, offset, rfl⟩
  simp only [instr?, op, orElseNone] at sound
  obtain ⟨-, -, -, -, frame⟩ := sound
  simp only [operands?, op, operands] at frame
  obtain ⟨n, literal, inside⟩ := (Option.any_eq_true _ _).mp (requireNone.mp frame)
  simp only [Bool.and_eq_true, decide_eq_true_eq] at inside
  exact ⟨slot, offset, n, operands, literal, inside⟩

end Instructions

theorem repeatedNone {seen names : List String} (none : repeatedName? seen names = none) :
    names.Nodup ∧ ∀ name ∈ names, name ∉ seen := by
  induction names generalizing seen with
  | nil => exact ⟨List.nodup_nil, List.forall_mem_nil _⟩
  | cons name rest ih =>
    rw [repeatedName?] at none
    split at none
    · cases none
    · rename_i new
      obtain ⟨once, others⟩ := ih none
      refine ⟨List.nodup_cons.mpr ⟨fun again => others name again List.mem_cons_self, once⟩,
        List.forall_mem_cons.mpr ⟨by simpa using new, fun other member old => ?_⟩⟩
      exact others other member (List.mem_cons_of_mem _ old)

theorem symbolsOnce (wellFormed : p.WellFormed) : p.symbols.Nodup :=
  (repeatedNone (Option.map_eq_none_iff.mp (orElseNone.mp wellFormed).1)).1

theorem namedAlone (wellFormed : p.WellFormed) (member : f ∈ p.functions) :
    p.functionNamed? f.name = some f := by
  obtain ⟨g, inside, name, found⟩ := Program.namedFirst member
  have once : (p.functions.map Function.name).Nodup :=
    (List.nodup_append.mp (symbolsOnce wellFormed)).2.1
  rw [found, List.inj_on_of_nodup_map once inside member name]

end WellFormed
end FixedIL
