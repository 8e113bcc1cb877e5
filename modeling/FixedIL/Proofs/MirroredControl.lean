import FixedIL.Proofs.MirroredSteps

/-!
Branches, returns and calls between functions. Both runs come to the same block, with the same
arguments, and a call that waits on one side has the call that stands for it waiting on the other.
-/
namespace FixedIL

namespace Frame

variable {f g : Frame} {d : FloatDomain} {i : Instr} {arm : Nat} {label : String}
  {args : List Value} {target : Block} {words : List Word}

theorem jumpTo (hasLabel : i.labels[arm]? = some label) (hasArgs : i.branchArgs[arm]? = some args)
    (named : f.fn.blockNamed? label = some target) (count : target.params.length = args.length)
    (values : f.values? d args = some words)
    (assigned : { f with label := target.label, rest := target.instrs }.assign? target.params words =
      some g) : f.jump d i arm = .ok g := by
  simp only [jump, hasLabel, hasArgs, named, count, values, assigned, orTrap, bind, Except.bind,
    ne_eq, not_true_eq_false, if_false]

end Frame

namespace Lowering

variable {c : Config} {p p' : Program} {fn : Function} {f f' g g' : Frame} {i j : Instr}
  {s s' : State} {after code : List Instr} {σ : Value → Value} {words : List Word}

section Ahead

theorem Mirrors.ahead (mirrors : Mirrors c p p' fn f f') (rest : f.rest = i :: after) :
    ∃ code code', f'.rest = code ++ code' ∧ Segment (setting c p p'.externs fn f'.fn) i code ∧
      Segments (setting c p p'.externs fn f'.fn) after code' := by
  have segments := mirrors.segments
  generalize f'.rest = written at segments
  rw [rest] at segments
  cases segments with
  | cons head tail => exact ⟨_, _, rfl, head, tail⟩

theorem writtenOne (j : Instr) (e : Emission) :
    ∃ loc, Emit.written (Emit.append j) e = [{ j with loc := loc }] := by
  obtain ⟨loc, placed⟩ := placedLoc e j
  refine ⟨loc, ?_⟩
  rw [← placed]
  exact List.drop_left

end Ahead

section Branches

variable (known : Comparable c p p') (meets : Meeting c p p' s s')
  (mirrors : Mirrors c p p' fn s.frame s'.frame) (rest : s.frame.rest = i :: after)
  (settles : Settles ((pass c).site p fn) σ)

include known meets mirrors rest settles

theorem jumpsAlike (op : i.op = .br ∨ i.op = .cbr)
    (labels : j.labels = i.labels) (lists : j.branchArgs = i.branchArgs.map (·.map σ)) {arm : Nat}
    (inside : arm < (if i.op = .br then 1 else 2)) :
    ∃ g g', s.frame.jump .encoded i arm = .ok g ∧ s'.frame.jump .ieee j arm = .ok g' ∧
      Related c p p' { s with frame := g } { s' with frame := g' } := by
  obtain ⟨targets, counts, each⟩ := WellFormed.branchTargets (mirrors.checked known rest) op
  have hasLabel : arm < i.labels.length := targets ▸ inside
  have hasArgs : arm < i.branchArgs.length := counts ▸ hasLabel
  have paired : (i.labels[arm], i.branchArgs[arm]) ∈ i.labels.zip i.branchArgs := by
    refine List.mem_of_getElem? (i := arm) (List.getElem?_zip_eq_some.mpr ⟨?_, ?_⟩)
    · exact List.getElem?_eq_getElem hasLabel
    · exact List.getElem?_eq_getElem hasArgs
  obtain ⟨target, named, params⟩ := each _ _ paired
  have member : i.branchArgs[arm] ∈ i.branchArgs := List.getElem_mem hasArgs
  have runs := meets.linked.frame
  have runs' := meets.linked'.frame
  rw [rest] at runs
  obtain ⟨words, values, length⟩ := Frame.valuesKnown (d := .encoded) fun id argument =>
    runs.argumentsInside known.referenceRunnable List.mem_cons_self member argument
  have values' := (mirrors.values known rest settles fun id argument =>
    .inr ⟨_, member, argument⟩).trans values
  obtain ⟨written, found', segments⟩ := loweredNamed mirrors.made.blocks named
  have block := Function.blockNamedMem named
  have block' := List.mem_of_find?_eq_some found'
  have inside (t : Temp) (param : t ∈ target.params) : t.id.toNat < s.frame.regs.size := by
    refine runs.reached known.referenceRunnable t ?_
    rw [mirrors.slotted]
    exact Function.memParams block param
  have inside' (t : Temp) (param : t ∈ mappedParams ((pass c).site p fn) target) :
      t.id.toNat < s'.frame.regs.size := by
    rw [runs'.regs]
    exact mirrors.made.inside t (Function.memParams block' param)
  obtain ⟨g, assigned⟩ := Frame.assignKnown
    (f := { s.frame with label := target.label, rest := target.instrs }) words inside
  obtain ⟨g', assigned'⟩ := Frame.assignKnown
    (f := { s'.frame with label := target.label, rest := written }) words inside'
  have count : words.length = target.params.length := length.trans params.symm
  have mirrored := mirrors.jump known.runnable (known.dominated fn mirrors.source) rest op
    (List.getElem_mem hasLabel) named segments count assigned assigned'
  have place := Machine.assignPlace assigned
  refine ⟨g, g', ?_, ?_, ?_⟩
  · refine Frame.jumpTo (List.getElem?_eq_getElem hasLabel) (List.getElem?_eq_getElem hasArgs) ?_
      params values assigned
    rw [mirrors.slotted]
    exact named
  · refine Frame.jumpTo ?_ ?_ found' ?_ values' assigned'
    · rw [labels]
      exact List.getElem?_eq_getElem hasLabel
    · rw [lists, List.getElem?_map, List.getElem?_eq_getElem hasArgs]
      rfl
    · change (mappedParams ((pass c).site p fn) target).length = _
      rw [mappedParams, List.length_map, params, List.length_map]
  · exact meets.related.onward mirrored place.1 place.2 meets.related.memory

theorem branchAlike (op : i.op = .br ∨ i.op = .cbr)
    (op' : j.op = i.op) (operands : j.operands = i.operands.map σ)
    (labels : j.labels = i.labels) (lists : j.branchArgs = i.branchArgs.map (·.map σ)) :
    EndAlike (Continues c p p') ((referenceMachine c p p').step s i after)
      ((loweredMachine c p').step s' j code) := by
  have jumped {arm : Nat} (inside : arm < (if i.op = .br then 1 else 2)) :
      EndAlike (Continues c p p')
        (s.frame.jump .encoded i arm >>= fun g => .ok (.running { s with frame := g }))
        (s'.frame.jump .ieee j arm >>= fun g => .ok (.running { s' with frame := g })) := by
    obtain ⟨g, g', jumped, jumped', related⟩ :=
      jumpsAlike known meets mirrors rest settles op labels lists inside
    rw [jumped, jumped']
    exact related
  rcases op with op | op
  · simp only [Machine.step, op', op]
    exact jumped (by rw [op]; exact Nat.one_pos)
  · have count := WellFormed.operandCount (mirrors.checked known rest) (by rw [op]; rfl)
    rw [op] at count
    obtain ⟨v, single⟩ := List.length_eq_one_iff.mp count
    have used (id : TempId) (is : v = .temp id) : i.Uses id :=
      .inl (by rw [single, is]; exact List.mem_cons_self)
    obtain ⟨u, -, -, -, held⟩ := mirrors.becomes known rest settles used
    simp only [Machine.step, op', op, operands, single]
    refine alikeRead mirrors.name held fun w _ => ?_
    exact jumped (by rw [op]; split <;> decide)

end Branches

section Calls

open Emit

theorem namedOwn (known : Comparable c p p') {name : String} {fn' : Function}
    (named : (p.withSlotsOf p').functionNamed? name = some fn') :
    ∃ g ∈ p.functions, ∃ g', LoweredFunction c p p'.externs g g' ∧ p.functionNamed? name = some g ∧
      p'.functionNamed? name = some g' ∧ fn' = g.withSlots g'.slots := by
  rcases Program.withSlotsNamed known.lowered.functions (fun _ _ made => made.name) name with
    ⟨-, -, none⟩ | ⟨g, g', made, own, own', both⟩
  · rw [none] at named
    cases named
  · exact ⟨g, List.mem_of_find?_eq_some own, g', made, own, own',
      Option.some.inj (named.symm.trans both)⟩

structure CallLowered (c : Config) (p : Program) (fn fn' : Function) (σ : Value → Value) (i : Instr)
    (target : CallTarget) (e : Emission) (code : List Instr) : Prop where
  settles : Settles ((pass c).site p fn) σ
  resolves : Resolves c ((pass c).site p fn) i.callee target
  results : i.results.length = target.plan.types.length
  code : code = callCode target.symbol target.plan (i.operands.map σ) (i.results.map Temp.id) e
  reserved : fn.nextTemp.toNat ≤ e.nextTemp.toNat
  below : ∀ v ∈ i.operands, ∀ id, σ v = .temp id → id.toNat < fn.nextTemp.toNat
  framed : fn.slots.length ≤ e.slots.length
  slots : ((callByPlan target.symbol target.plan (i.operands.map σ)
    (i.results.map Temp.id)).run e).2.slots <+: fn'.slots

theorem callLowered {fn' : Function} {externs : List Extern} (op : i.op = .call)
    (segment : Segment (setting c p externs fn fn') i code) :
    ∃ σ target e, CallLowered c p fn fn' σ i target e code := by
  cases segment with
  | @written σ x names e lowered reserved inside below admitted retypes settles framed slots linked =>
    cases lowered with
    | one rewritten => exact absurd op (rewrittenPlain rewritten).1
    | sequence results sequenced => exact absurd op (sequencedPlain sequenced)
    | same cast =>
      rw [op] at cast
      cases cast
    | @call target call resolves args results =>
      refine ⟨σ, target, e, settles, resolves, results, ?_, reserved, below, framed, slots⟩
      rw [written, callWritten (by rw [List.length_map]; exact results), List.drop_left]

theorem ownCall {fn' callee : Function} {externs : List Extern} (op : i.op = .call)
    (named : p.functionNamed? i.callee = some callee)
    (segment : Segment (setting c p externs fn fn') i code) :
    ∃ σ ts loc, Settles ((pass c).site p fn) σ ∧ ts.map Temp.id = i.resultIds ∧
      code = [calling i.callee ts (i.operands.map σ) loc] := by
  obtain ⟨σ, target, e, lowered⟩ := callLowered op segment
  have results := lowered.results
  have written := lowered.code
  have own : ((pass c).site p fn).signature? i.callee ≠ none := fun foreign => by
    have none : p.functionNamed? i.callee = none := foreignSignature.mp foreign
    rw [named] at none
    cases none
  cases lowered.resolves with
  | builtin foreign => exact absurd foreign own
  | outside foreign => exact absurd foreign own
  | @function sig own =>
    refine ⟨σ, tempsOf sig.returnTypes (i.results.map Temp.id), e.loc, lowered.settles, ?_, written⟩
    exact tempsOfIds (by rw [List.length_map]; exact results)

end Calls

section Returns

variable {made made' : Instr} {after' code' : List Instr}

theorem Mirrors.delivered {ts : List Temp} (mirrors : Mirrors c p p' fn f f')
    (known : Comparable c p p') (rest : f.rest = made :: after) (op : made.op = .call)
    (segments : Segments (setting c p p'.externs fn f'.fn) after code)
    (ids : ts.map Temp.id = made.resultIds) (count : words.length = made.results.length)
    (assigned : f.assign? made.results words = some g) (assigned' : f'.assign? ts words = some g') :
    Mirrors c p p' fn { g with rest := after } { g' with rest := code } := by
  obtain ⟨defined, kept⟩ := assignedAlike ids count assigned assigned'
  have plain : made.isTerminator = false := by rw [Instr.isTerminator, op]; rfl
  have other : sameNumberCast made.op = false := by rw [op]; rfl
  refine mirrors.onward known.runnable (known.dominated fn mirrors.source) rest plain other segments
    ?_ ?_ defined (fun id outside => (kept id outside).1) fun id outside _ => (kept id outside).2
  · rw [Frame.assignShape assigned]
  · rw [Frame.assignShape assigned']

theorem deliverAlike {ts : List Temp} (known : Comparable c p p')
    (mirrors : Mirrors c p p' fn f f') (rest : f.rest = made :: after) (op : made.op = .call)
    (segments : Segments (setting c p p'.externs fn f'.fn) after code)
    (results : made'.results = ts) (ids : ts.map Temp.id = made.resultIds)
    (inside : ∀ t ∈ made.results, t.id.toNat < f.regs.size)
    (inside' : ∀ t ∈ ts, t.id.toNat < f'.regs.size) :
    EndAlike (fun g g' => ∃ fn, Mirrors c p p' fn { g with rest := after } { g' with rest := code })
      (State.deliver f made words) (State.deliver f' made' words) := by
  have same : made'.results.length = made.results.length := by
    rw [results, ← List.length_map Temp.id, ids, Instr.resultIds, List.length_map]
  unfold State.deliver
  rw [same, results]
  refine alikeIte (fun _ => alikeTrap mirrors.name) fun count => ?_
  obtain ⟨g, assigned⟩ := Frame.assignKnown words inside
  obtain ⟨g', assigned'⟩ := Frame.assignKnown words inside'
  rw [assigned, assigned']
  exact ⟨fn, mirrors.delivered known rest op segments ids (Decidable.not_not.mp count) assigned
    assigned'⟩

variable (known : Comparable c p p') (meets : Meeting c p p' s s')
  (mirrors : Mirrors c p p' fn s.frame s'.frame) (rest : s.frame.rest = i :: after)
  (settles : Settles ((pass c).site p fn) σ)

include known meets mirrors rest settles

theorem retAlike (op : i.op = .ret) (op' : j.op = i.op) (operands : j.operands = i.operands.map σ) :
    EndAlike (Continues c p p') ((referenceMachine c p p').step s i after)
      ((loweredMachine c p').step s' j code) := by
  have same : s'.frame.values? .ieee (i.operands.map σ) = s.frame.values? .encoded i.operands :=
    mirrors.values known rest settles fun id member => .inl member
  simp only [Machine.step, op', op, Machine.ret, operands]
  refine alikeRead mirrors.name same fun words _ => ?_
  have related := meets.related.callers
  have awaits := meets.linked.callers
  have awaits' := meets.linked'.callers
  generalize waiting : s.callers = callers at *
  generalize waiting' : s'.callers = callers' at *
  cases related with
  | nil => exact rfl
  | @cons caller caller' callers callers' head tail =>
    obtain ⟨fn₁, mirrors₁⟩ := head
    cases awaits with
    | @call _ _ made left _ runs head call named below =>
    cases awaits' with
    | @call _ _ made' left' _ runs' head' call' named' below' =>
    obtain ⟨own, left₁, written, segment, segments⟩ := mirrors₁.ahead head
    obtain ⟨callee, -, callee', -, named, -⟩ := namedOwn known named
    obtain ⟨σ₁, ts, loc, -, ids, rfl⟩ := ownCall call named segment
    obtain ⟨rfl, rfl⟩ := List.cons.inj (head'.symm.trans written)
    have inside := runs.resultsInside known.referenceRunnable List.mem_cons_self
    have inside' (t : Temp) (member : t ∈ ts) : t.id.toNat < caller'.regs.size := by
      rw [runs'.regs]
      exact mirrors₁.made.inside t (runs'.declared List.mem_cons_self t member)
    simp only [head, head']
    refine alikeBind (deliverAlike known mirrors₁ head call segments rfl ids inside inside') ?_
    rintro g g' delivered ⟨fn₂, mirrors₂⟩
    have place := Machine.assignPlace (Frame.deliverOk delivered).2
    refine ⟨⟨fn₂, mirrors₂⟩, tail, ?_⟩
    change Memory.SameBut _ (s.memory.release s.frame.firstBuffer)
      (s'.memory.release s'.frame.firstBuffer)
    rw [mirrors.firstBuffer]
    refine meets.related.memory.release _ fun k low hides => ?_
    obtain ⟨f, among, hides⟩ := hides
    rw [waiting] at among
    rcases List.mem_cons.mp among with rfl | among
    · exact absurd hides.1 (by omega)
    rcases List.mem_cons.mp among with rfl | among
    · exact ⟨_, List.mem_cons_self, hides.moved place.1 place.2⟩
    · exact ⟨f, List.mem_cons_of_mem _ among, hides⟩

end Returns

section Entries

theorem enterAlike {fn' : Function} (known : Comparable c p p') (member : fn ∈ p.functions)
    (made : LoweredFunction c p p'.externs fn fn') (args : List Word) (depth first : Nat) :
    EndAlike (Mirrors c p p' fn) (Frame.enter (fn.withSlots fn'.slots) args depth first)
      (Frame.enter fn' args depth first) := by
  have sound := WellFormed.noViolation known.runnable.wellFormed member
  have name : fn'.name = (fn.withSlots fn'.slots).name := made.name
  obtain ⟨entry, others, blocks, -⟩ := WellFormed.entryParams sound
  have inside (t : Temp) (param : t ∈ entry.params) :
      t.id.toNat < (Frame.blankRegs (fn.withSlots fn'.slots)).size := by
    rw [Frame.blankRegs, Array.size_replicate]
    exact Function.reachedNext (known.runnable.room fn member) t
      (Function.memParams (blocks ▸ List.mem_cons_self) param)
  have lowered := made.blocks
  rw [blocks] at lowered
  generalize blocks' : fn'.blocks = written at lowered
  cases lowered with
  | @cons _ code _ rest segments tail =>
  have inside' (t : Temp) (param : t ∈ mappedParams ((pass c).site p fn) entry) :
      t.id.toNat < (Frame.blankRegs fn').size := by
    rw [Frame.blankRegs, Array.size_replicate]
    exact made.inside t (Function.memParams (blocks' ▸ List.mem_cons_self) param)
  have slotted : (fn.withSlots fn'.slots).blocks = entry :: others := blocks
  unfold Frame.enter
  simp only [slotted, blocks', name]
  have params : (mappedParams ((pass c).site p fn) entry).length = entry.params.length :=
    List.length_map _
  rw [params]
  refine alikeIte (fun _ => rfl) fun _ => alikeIte (fun _ => rfl) fun count => ?_
  obtain ⟨f, assigned⟩ := Frame.assignKnown (f := ⟨fn.withSlots fn'.slots, entry.label,
    entry.instrs, Frame.blankRegs (fn.withSlots fn'.slots), first⟩) args inside
  obtain ⟨f', assigned'⟩ := Frame.assignKnown
    (f := ⟨fn', entry.label, code, Frame.blankRegs fn', first⟩) args inside'
  rw [assigned, assigned']
  exact mirrorsEntered known.runnable member made blocks segments (Decidable.not_not.mp count)
    assigned assigned'

variable (known : Comparable c p p') (meets : Meeting c p p' s s')
  (mirrors : Mirrors c p p' fn s.frame s'.frame) (rest : s.frame.rest = i :: after)

include known meets mirrors rest

theorem ownCallAnswered {callee : Function} (op : i.op = .call)
    (named : p.functionNamed? i.callee = some callee) :
    Answered c p p' s s' ((referenceMachine c p p').step s i after) := by
  obtain ⟨own, left, written, segment, -⟩ := mirrors.ahead rest
  obtain ⟨σ, ts, loc, settles, ids, rfl⟩ := ownCall op named segment
  have member : callee ∈ p.functions := List.mem_of_find?_eq_some named
  rcases Program.withSlotsNamed known.lowered.functions (fun _ _ made => made.name) i.callee with
    ⟨none, -, -⟩ | ⟨g, g', made, named', lowered, slotted⟩
  · rw [named] at none
    cases none
  obtain rfl := Option.some.inj (named.symm.trans named')
  refine alikeAnswered written ?_
  have same : s'.frame.values? .ieee (i.operands.map σ) = s.frame.values? .encoded i.operands :=
    mirrors.values known rest settles fun id member => .inl member
  have depth := meets.related.callers.length_eq
  have count := meets.related.memory.count
  change EndAlike _ ((referenceMachine c p p').step s i after)
    ((loweredMachine c p').call s' (Emit.calling i.callee ts (i.operands.map σ) loc) left)
  simp only [Machine.step, op]
  refine alikeRead mirrors.name same fun args _ => ?_
  have found : (referenceMachine c p p').program.functionNamed? i.callee =
      some (callee.withSlots g'.slots) := slotted
  have found' : (loweredMachine c p').program.functionNamed?
      (Emit.calling i.callee ts (i.operands.map σ) loc).callee = some g' := lowered
  rw [found, found', ← depth, count]
  refine alikeBind (enterAlike known member made args _ _) ?_
  intro f f' entered mirrored
  refine ⟨⟨callee, mirrored⟩, .cons ⟨fn, mirrors⟩ meets.related.callers, ?_⟩
  refine meets.related.memory.allocate _ fun k hides => ?_
  obtain ⟨f, among, hides⟩ := hides
  exact ⟨f, List.mem_cons_of_mem _ among, hides⟩

end Entries

end Lowering
end FixedIL
