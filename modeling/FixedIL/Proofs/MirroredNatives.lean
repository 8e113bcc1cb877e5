import FixedIL.Proofs.CatalogRoutines
import FixedIL.Proofs.MirroredControl
import FixedIL.Proofs.ReturnPlans

/-!
Calls out of the program. The reference run calls the routine behind the fixed-point implementation
of a builtin, and so does lowered code, which may take the results through a buffer of its own.
-/
namespace FixedIL

namespace Lowering

/-- What stands outside of the program is there as lowered code calls it: no function has the name
of an implementation that a call needs, and no extern has the name with another signature. -/
def Linkable (c : Config) (p : Program) : Prop :=
  ∀ i ∈ callsOf p.code, ∀ e, redirect? c p i.callee = some e →
    p.functionNamed? e.name = none ∧ meaning? c p e.name = some e.sig

variable {c : Config} {p p' : Program} {fn : Function} {f f' g g' : Frame} {i j : Instr}
  {s s' : State} {after code : List Instr} {σ : Value → Value} {words : List Word}

section Reference

variable {e : Extern} {routine : NativeRoutine}

theorem cellsStored {params : List Slot}
    (visible : params.findIdx? (fun p => p.purpose = .structReturn) = none) (words : List Word) :
    Machine.cells .encoded params words =
      Machine.cells .ieee (params.map fun p => { p with type := p.type.stored }) words := by
  have visible' : (params.map fun p => { p with type := p.type.stored }).findIdx?
      (fun p => p.purpose = .structReturn) = none := by
    rw [List.findIdx?_map]
    exact visible
  rw [Machine.cellsVisible visible, Machine.cellsVisible visible', List.zip_map_left, List.map_map]
  refine List.map_congr_left fun a _ => ?_
  exact FloatDomain.encodedCell a.1.type a.2

theorem externStored {m : Machine} (domain : m.domain = .encoded)
    (bound : m.registry.bind (m.domain.routine? · e.name) = some routine)
    (visible : e.sig.structReturnIndex? = none) (args : List Word) (memory : Memory) :
    m.callExtern f i e args memory = .ok (Machine.loadResults .ieee
      (e.sig.mapTypes Ty.stored).returnTypes (Machine.padded (routine (Machine.cells .ieee
        (e.sig.mapTypes Ty.stored).params args))), memory) := by
  simp only [Machine.callExtern, bound, visible]
  rw [domain, cellsStored visible, FloatDomain.encodedResults, storedReturns]
  rfl

end Reference

theorem foreignDeclared {name : String} {sig : Signature} (run : (pass c).run p = .ok p')
    (unnamed : p.functionNamed? name = none) (means : meaning? c p name = some sig) :
    p'.functionNamed? name = none ∧ p'.externNamed? name = some ⟨name, sig⟩ := by
  have unnamed' := (hidden run name).mpr unnamed
  have declared := loweredMeaning run name
  rw [means, Program.calleeSig?, unnamed'] at declared
  obtain ⟨e, named, rfl⟩ := Option.map_eq_some_iff.mp declared
  have is : e.name = name := by simpa using List.find?_some named
  exact ⟨unnamed', by rw [named, ← is]⟩

section Calls

theorem foreignNone (known : Comparable c p p') {name : String}
    (unnamed : p.functionNamed? name = none) : (p.withSlotsOf p').functionNamed? name = none := by
  rcases Program.withSlotsNamed known.lowered.functions (fun _ _ made => made.name) name with
    ⟨-, -, none⟩ | ⟨g, g', made, named, -⟩
  · exact none
  · rw [unnamed] at named
    cases named

theorem nativeCall {m : Machine} {e : Extern} {args : List Word} (op : i.op = .call)
    (values : s.frame.values? m.domain i.operands = some args)
    (unnamed : m.program.functionNamed? i.callee = none)
    (named : m.program.externNamed? i.callee = some e) :
    m.step s i after = m.callExtern s.frame i e args s.memory >>= fun given =>
      State.deliver s.frame i given.1 >>= fun f =>
        .ok (.running { s with frame := { f with rest := after }, memory := given.2 }) := by
  simp only [Machine.step, op, Machine.call, values, unnamed, named, Frame.orTrap, bind, Except.bind]

theorem argumentsRead (known : Comparable c p p') (meets : Meeting c p p' s s')
    (rest : s.frame.rest = i :: after) : ∃ args, s.frame.values? .encoded i.operands = some args := by
  have read := meets.reads known rest i.operands.length
  rwa [List.take_length] at read

theorem unknownUnbound {m : Machine} {e : Extern} {args : List Word} {memory : Memory}
    (none : m.registry.bind (m.domain.routine? · e.name) = none) :
    m.callExtern f i e args memory = .error (.noBinding e.name) := by
  simp only [Machine.callExtern, none]

theorem calleeDeclared (known : Comparable c p p') (mirrors : Mirrors c p p' fn f f')
    (rest : f.rest = i :: after) (op : i.op = .call) (unnamed : p.functionNamed? i.callee = none) :
    ∃ e, p.externNamed? i.callee = some e ∧ e.name = i.callee := by
  obtain ⟨sig, called, -⟩ := WellFormed.callTypes (mirrors.checked known rest) op
  rw [Program.calleeSig?, unnamed] at called
  obtain ⟨e, named, -⟩ := Option.map_eq_some_iff.mp called
  exact ⟨e, named, by simpa using List.find?_some named⟩

variable (known : Comparable c p p') (meets : Meeting c p p' s s')
  (mirrors : Mirrors c p p' fn s.frame s'.frame) (rest : s.frame.rest = i :: after)
  (op : i.op = .call) (unnamed : p.functionNamed? i.callee = none)

include known meets mirrors rest op unnamed

theorem outsideAnswered (unknown : c.registry.findSymbol? i.callee = none) :
    Answered c p p' s s' ((referenceMachine c p p').step s i after) := by
  obtain ⟨own, left, written, segment, -⟩ := mirrors.ahead rest
  obtain ⟨σ, target, e, lowered⟩ := callLowered op segment
  obtain ⟨entry, named, name⟩ := calleeDeclared known mirrors rest op unnamed
  have own' : own = [Emit.calling i.callee (Emit.tempsOf target.plan.types (i.results.map Temp.id))
      (i.operands.map σ) e.loc] := by
    have code := lowered.code
    cases lowered.resolves with
    | function own => exact code
    | outside => exact code
    | builtin foreign found =>
      rw [unknown] at found
      cases found
  have means : meaning? c p i.callee = some target.sig := by
    rcases resolvesMeans lowered.resolves with ⟨-, -, means⟩ | redirected
    · exact means
    · rw [unknownRedirect unknown] at redirected
      cases redirected
  have unnamed' := foreignNone known unnamed
  obtain ⟨lost, declared⟩ := foreignDeclared known.run unnamed means
  obtain ⟨args, values⟩ := argumentsRead known meets rest
  have values' := (mirrors.values known rest lowered.settles fun id member => .inl member).trans
    values
  have silent : (loweredMachine c p').registry.bind
      ((loweredMachine c p').domain.routine? · i.callee) = none := by
    change (c.registry.findSymbol? i.callee).bind _ = none
    rw [unknown]
    rfl
  have silent' : (referenceMachine c p p').registry.bind
      ((referenceMachine c p p').domain.routine? · entry.name) = none := by
    change (c.registry.findSymbol? entry.name).bind _ = none
    rw [name, unknown]
    rfl
  subst own'
  refine alikeAnswered written ?_
  rw [nativeCall (m := referenceMachine c p p') op values unnamed' named,
    nativeCall (m := loweredMachine c p') (s := s')
      (i := Emit.calling i.callee _ (i.operands.map σ) e.loc) rfl values' lost declared,
    unknownUnbound silent', unknownUnbound silent, name]
  exact rfl

end Calls

section Builtins

open Emit

structure Reaching (c : Config) (p p' : Program) (i : Instr) (target : CallTarget)
    (flat : Signature) (routine : NativeRoutine) (e : Extern) (n : Nat) (type : Ty) : Prop where
  declared : p.externNamed? i.callee = some e
  own : (referenceMachine c p p').registry.bind
    ((referenceMachine c p p').domain.routine? · e.name) = some routine
  stored : e.sig.mapTypes Ty.stored = flat
  visible : flat.structReturnIndex? = none
  classified : ReturnPlan.classify flat.returnTypes c.target = .ok target.plan
  legal : target.sig = if target.plan.usesBuffer then ⟨⟨.ptr, .structReturn⟩ :: flat.params, []⟩
    else flat
  binds : (loweredMachine c p').Binds target.symbol target.sig routine
  returns : flat.returnTypes = List.replicate n type
  few : n ≤ 4
  value : type ≠ .void
  lanes : ∀ cells, ∃ lanes : List (List UInt8), routine cells = lanes.flatten ∧
    lanes.length = n ∧ ∀ lane ∈ lanes, lane.length = type.size

variable {hit : Builtin.Registry.SymbolHit} {target : CallTarget} {flat : Signature}
  {routine : NativeRoutine} {entry : Extern} {n : Nat} {type : Ty} {e : Emission}

theorem mappedVisible {sig : Signature} (visible : (sig.mapTypes Ty.stored).structReturnIndex? = none) :
    sig.structReturnIndex? = none := by
  simpa [Signature.structReturnIndex?, Signature.mapTypes, List.findIdx?_map,
    Function.comp_def] using visible

theorem lanesFew (t : Builtin.ShaderTy) : t.lanes ≤ 4 := by
  cases t <;> decide

theorem builtinReaching (known : Comparable c p p')
    (backed : c.registry.Backed) (linkable : Linkable c p)
    (mirrors : Mirrors c p p' fn f f') (rest : f.rest = i :: after) (op : i.op = .call)
    (unnamed : p.functionNamed? i.callee = none)
    (found : c.registry.findSymbol? i.callee = some hit)
    (resolves : Resolves c ((pass c).site p fn) i.callee target) :
    ∃ flat routine e n type, Reaching c p p' i target flat routine e n type := by
  obtain ⟨e, named, name⟩ := calleeDeclared known mirrors rest op unnamed
  have member : i ∈ callsOf p.code := by
    refine List.mem_filter.mpr ⟨?_, decide_eq_true op⟩
    exact List.mem_flatMap.mpr ⟨fn, mirrors.source, mirrors.inCode rest⟩
  have stored := known.declares e (List.mem_of_find?_eq_some named) hit (name ▸ found)
  cases resolves with
  | function own =>
    rw [foreignSignature.mpr unnamed] at own
    cases own
  | @builtin hit' m plan sig foreign found' fixed classified legal =>
    obtain rfl := Option.some.inj (found.symm.trans found')
    obtain ⟨routine, backs⟩ := backed i.callee hit m found fixed
    have redirected : redirect? c p i.callee = some ⟨m.symbol, sig⟩ :=
      redirectIff.mpr ⟨unnamed, hit, m, sig, found, fixed, legal, rfl⟩
    obtain ⟨free, means⟩ := linkable i member _ redirected
    obtain ⟨lost, declared⟩ := foreignDeclared known.run free means
    have legal' := ReturnPlan.legalizeClassified classified
    rw [legal] at legal'
    refine ⟨_, routine, e, _, _, named, ?_, stored, Builtin.flattenVisible _ _, classified,
      Except.ok.inj legal', ⟨lost, declared, backs.found⟩, Builtin.flattenReturns _ _, lanesFew _,
      Builtin.laneValue _ _, backs.lanes⟩
    change (c.registry.findSymbol? e.name).bind _ = _
    rw [name, found]
    change (c.registry.implementationFor? hit.descriptor .fixedPoint).bind _ = _
    rw [fixed]
    exact backs.own
  | outside foreign unknown =>
    rw [found] at unknown
    cases unknown

theorem referenceGives {args : List Word} (known : Comparable c p p')
    (reaching : Reaching c p p' i target flat routine entry n type) (op : i.op = .call)
    (unnamed : p.functionNamed? i.callee = none)
    (values : s.frame.values? .encoded i.operands = some args) :
    (referenceMachine c p p').step s i after = State.deliver s.frame i
        (Machine.loadResults .ieee flat.returnTypes
          (Machine.padded (routine (Machine.cells .ieee flat.params args)))) >>= fun f =>
      .ok (.running { s with frame := { f with rest := after } }) := by
  have visible := mappedVisible (reaching.stored ▸ reaching.visible)
  rw [nativeCall (m := referenceMachine c p p') op values (foreignNone known unnamed)
    reaching.declared, externStored rfl reaching.own visible, reaching.stored]
  rfl

theorem bufferHidden (known : Comparable c p p') (meets : Meeting c p p' s s')
    (mirrors : Mirrors c p p' fn s.frame s'.frame) {k number offset : Nat} {slot : FrameSlot}
    (here : s'.frame.fn.slots[k]? = some slot) (framed : fn.slots.length ≤ k)
    (located : Memory.locate? (Memory.address (s'.frame.firstBuffer + k) 0) =
      some (number, offset)) : s.Hides p number := by
  obtain ⟨buffer, found, -⟩ := meets.housed.buffer here
  have low : s'.frame.firstBuffer + k < s'.memory.buffers.length :=
    (List.getElem?_eq_some_iff.mp found).1
  have start := Memory.locateAddress (Nat.lt_of_le_of_lt low (meets.few known))
    (show 0 < UInt32.size by decide)
  change Memory.locate? (Memory.address (s'.frame.firstBuffer + k) 0 + 0) = _ at start
  rw [UInt64.add_zero, located] at start
  obtain ⟨rfl, -⟩ := Prod.mk.inj (Option.some.inj start)
  have inside := (List.getElem?_eq_some_iff.mp here).1
  have named := WellFormed.namedAlone known.runnable.wellFormed mirrors.source
  refine ⟨s.frame, List.mem_cons_self, ?_, ?_⟩
  · rw [mirrors.slotted, mirrors.firstBuffer, Program.slotCount]
    change _ + ((p.functionNamed? fn.name).map _).getD 0 ≤ _
    rw [named]
    exact Nat.add_le_add_left framed _
  · rw [mirrors.slotted, mirrors.firstBuffer]
    exact Nat.add_lt_add_left inside _

variable (known : Comparable c p p') (meets : Meeting c p p' s s')
  (mirrors : Mirrors c p p' fn s.frame s'.frame) (rest : s.frame.rest = i :: after)
  (op : i.op = .call) (unnamed : p.functionNamed? i.callee = none)
  (lowered : CallLowered c p fn s'.frame.fn σ i target e code)
  (reaching : Reaching c p p' i target flat routine entry n type)
  (segments : Segments (setting c p p'.externs fn s'.frame.fn) after left)

include known meets mirrors rest op unnamed lowered reaching segments

theorem directAnswered (written : s'.frame.rest = code ++ left)
    (direct : target.plan.usesBuffer = false) :
    Answered c p p' s s' ((referenceMachine c p p').step s i after) := by
  obtain ⟨args, values⟩ := argumentsRead known meets rest
  have values' := (mirrors.values known rest lowered.settles fun id member => .inl member).trans
    values
  have code' := lowered.code
  rw [callCode, direct, if_neg Bool.false_ne_true] at code'
  have legal := reaching.legal
  rw [direct, if_neg Bool.false_ne_true] at legal
  have binds := reaching.binds
  rw [legal] at binds
  subst code'
  refine alikeAnswered written ?_
  rw [referenceGives known reaching op unnamed values,
    nativeCall (m := loweredMachine c p') (s := s') (i := calling target.symbol _ _ e.loc) rfl
      values' binds.foreign binds.declared]
  have given : (loweredMachine c p').callExtern s'.frame (calling target.symbol
      (tempsOf target.plan.types (i.results.map Temp.id)) (i.operands.map σ) e.loc)
      ⟨target.symbol, flat⟩ args s'.memory = .ok (Machine.loadResults .ieee flat.returnTypes
        (Machine.padded (routine (Machine.cells .ieee flat.params args))), s'.memory) := by
    simp only [Machine.callExtern, binds.bound, reaching.visible]
    rfl
  rw [given]
  change EndAlike _ _ (State.deliver s'.frame _ _ >>= _)
  have ids : (tempsOf target.plan.types (i.results.map Temp.id)).map Temp.id = i.resultIds :=
    tempsOfIds ((List.length_map _).trans lowered.results)
  refine alikeBind (deliverAlike known mirrors rest op segments rfl ids
    (meets.registers known rest) (meets.registers' written)) ?_
  rintro g g' delivered ⟨fn', mirrored⟩
  have place := Machine.assignPlace (Frame.deliverOk delivered).2
  exact meets.related.onward mirrored place.1 place.2 meets.related.memory

omit known meets mirrors rest op unnamed lowered segments in
theorem bufferShape (buffer : target.plan.usesBuffer = true) :
    target.plan.types = List.replicate n type ∧ target.plan.elementSize = type.size ∧
      target.plan.bufferSize.toUInt32.toNat = n * type.size := by
  have classified := reaching.classified
  rw [reaching.returns] at classified
  obtain ⟨types, parts⟩ := ReturnPlan.bufferParts reaching.value classified buffer
  refine ⟨types, parts, ?_⟩
  rw [ReturnPlan.bufferSize, buffer, if_pos rfl, types, List.length_replicate, parts]
  exact UInt32.toNat_ofNat_of_lt' (Nat.lt_of_le_of_lt
    (Nat.mul_le_mul reaching.few (ReturnPlan.sizeMost type)) (by decide))

omit known meets mirrors rest op unnamed segments in
theorem bufferCount (buffer : target.plan.usesBuffer = true) : i.resultIds.length = n := by
  rw [Instr.resultIds, List.length_map, lowered.results, (bufferShape reaching buffer).1,
    List.length_replicate]

omit meets op unnamed reaching segments in
theorem resultsReserved : ∀ id ∈ i.resultIds, id.toNat < e.nextTemp.toNat := by
  intro id member
  obtain ⟨t, result, rfl⟩ := List.mem_map.mp member
  exact Nat.lt_of_lt_of_le (mirrors.resultBelow known rest result) lowered.reserved

omit op unnamed segments in
theorem bufferCode (written : s'.frame.rest = code ++ left)
    (buffer : target.plan.usesBuffer = true) :
    code = computing .stackaddr .ptr [.int (Int64.ofNat e.slots.length), .int 0] e.nextTemp e.loc ::
        callInstr target.symbol [] (.temp e.nextTemp :: i.operands.map σ) e.loc ::
        loadInstrs target.plan type (.temp e.nextTemp) 0 i.resultIds e.loc ∧
      s'.frame.fn.slots[e.slots.length]? =
        some ⟨target.plan.bufferSize.toUInt32, target.plan.bufferAlign.toUInt32⟩ := by
  have count := bufferCount lowered reaching buffer
  have room : e.nextTemp.toNat + 1 < UInt32.size := by
    have code' := lowered.code
    rw [callCode, buffer, if_pos rfl] at code'
    have head := written
    rw [code', List.cons_append] at head
    have inside : e.nextTemp.toNat < _ :=
      meets.registers' head ⟨e.nextTemp, .ptr⟩ List.mem_cons_self
    rw [meets.linked'.frame.regs] at inside
    have below := UInt32.toNat_lt_size s'.frame.fn.nextTemp
    omega
  have adds := bufferAdds (e := e) (bufferShape reaching buffer).1
    (resultsReserved known mirrors rest lowered) target.symbol (i.operands.map σ) buffer
    (by rw [count, Nat.sub_self]; exact room)
  have own : resultIds (e.nextTemp.toNat + 1) n i.resultIds = i.resultIds := by
    rw [resultIds, ← count, List.take_length, Nat.sub_self]
    exact List.append_nil _
  rw [own] at adds
  constructor
  · refine lowered.code.trans (List.append_cancel_left (?_ : e.code ++ _ = e.code ++ _))
    rw [← callWritten (by rw [List.length_map]; exact lowered.results)]
    exact adds.code
  · obtain ⟨more, whole⟩ := lowered.slots
    rw [← whole]
    change (((callByPlan target.symbol target.plan (i.operands.map σ) i.resultIds).run e).2.slots ++
      more)[e.slots.length]? = _
    rw [adds.slots, List.append_assoc, List.getElem?_append_right (Nat.le_refl _), Nat.sub_self]
    rfl

omit mirrors lowered segments in
theorem lanesDelivered {args : List Word} {lanes : List (List UInt8)}
    (values : s.frame.values? .encoded i.operands = some args)
    (writes : routine (Machine.cells .ieee flat.params args) = lanes.flatten)
    (count : lanes.length = n) (long : ∀ lane ∈ lanes, lane.length = type.size)
    (results : i.results.length = n) :
    ∃ g, s.frame.assign? i.results (lanes.map ((loweredMachine c p').domain.load type)) = some g ∧
      (referenceMachine c p p').step s i after =
        .ok (.running { s with frame := { g with rest := after } }) := by
  have amount : (lanes.map ((loweredMachine c p').domain.load type)).length = i.results.length := by
    rw [List.length_map, count, results]
  have given : Machine.loadResults .ieee flat.returnTypes
      (Machine.padded (routine (Machine.cells .ieee flat.params args))) =
        lanes.map ((loweredMachine c p').domain.load type) := by
    rw [reaching.returns, writes, ← count]
    exact Machine.loadLanes (fun lane member => (long lane member).trans (ieeeSize type).symm) _
  obtain ⟨g, assigned⟩ := Frame.assignKnown
    (lanes.map ((loweredMachine c p').domain.load type)) (meets.registers known rest)
  refine ⟨g, assigned, ?_⟩
  rw [referenceGives known reaching op unnamed values, given]
  simp only [State.deliver, if_neg (not_not_intro amount), assigned, Frame.orTrap]
  rfl

omit meets unnamed reaching in
theorem bufferMirrors {words : List Word} (address : Word)
    (inside : ∀ id ∈ e.nextTemp :: i.resultIds, id.toNat < s'.frame.regs.size)
    (amount : words.length = i.results.length)
    (assigned : s.frame.assign? i.results words = some g) :
    Mirrors c p p' fn { g with rest := after }
      { (s'.frame.put e.nextTemp address).puts i.resultIds words with rest := left } := by
  have assigned' : (s'.frame.put e.nextTemp address).assign? (i.resultIds.map (⟨·, .i32⟩)) words =
      some ((s'.frame.put e.nextTemp address).puts i.resultIds words) :=
    Frame.assignPuts _ .i32 (Frame.putInside inside) words
  generalize (s'.frame.put e.nextTemp address).puts i.resultIds words = g' at assigned'
  obtain ⟨defined, kept⟩ := assignedAlike (by rw [List.map_map]; exact List.map_id _) amount
    assigned assigned'
  have plain : i.isTerminator = false := by rw [Instr.isTerminator, op]; rfl
  have noCast : sameNumberCast i.op = false := by rw [op]; rfl
  refine mirrors.onward known.runnable (known.dominated fn mirrors.source) rest plain noCast
    segments ?_ ?_ defined ?_ ?_
  · rw [Frame.assignShape assigned]
  · rw [Frame.assignShape assigned']
    rfl
  · exact fun id outside => (kept id outside).1
  · rintro id outside ⟨t, member, rfl⟩
    have below := Function.tempBelowNext member (known.runnable.room fn mirrors.source t member)
    refine (kept t.id outside).2.trans (s'.frame.putOther ?_ address)
    rintro is
    rw [is] at below
    exact Nat.not_le_of_lt below lowered.reserved

theorem bufferAnswered (written : s'.frame.rest = code ++ left)
    (buffer : target.plan.usesBuffer = true) :
    Answered c p p' s s' ((referenceMachine c p p').step s i after) := by
  obtain ⟨own, here⟩ := bufferCode known meets mirrors rest lowered reaching written buffer
  obtain ⟨args, values⟩ := argumentsRead known meets rest
  have values' := (mirrors.values known rest lowered.settles fun id member => .inl member).trans
    values
  obtain ⟨-, parts, size⟩ := bufferShape reaching buffer
  have binds := reaching.binds
  rw [reaching.legal, buffer, if_pos rfl] at binds
  obtain ⟨lanes, writes, count, long⟩ := reaching.lanes (Machine.cells .ieee flat.params args)
  have results := bufferCount lowered reaching buffer
  have other : e.nextTemp ∉ i.resultIds := fun member =>
    Nat.lt_irrefl _ (resultsReserved known mirrors rest lowered _ member)
  have unread : .temp e.nextTemp ∉ i.operands.map σ := fun member => by
    obtain ⟨v, operand, is⟩ := List.mem_map.mp member
    exact Nat.not_le_of_lt (lowered.below v operand _ is) lowered.reserved
  rw [own] at written
  have inside : ∀ id ∈ e.nextTemp :: i.resultIds, id.toNat < s'.frame.regs.size := by
    rw [← bufferDefines]
    intro id member
    obtain ⟨t, defined, rfl⟩ := List.mem_map.mp member
    obtain ⟨j, instr, result⟩ := List.mem_flatMap.mp defined
    exact (carriesAhead meets mirrors written).room j instr t result
  rw [← count] at size
  obtain ⟨address, memory, stored, path⟩ := Machine.bufferCall (m := loweredMachine c p') rfl
    reaching.value binds reaching.visible meets.housed (meets.few known) here size parts values'
    writes long (results.trans count.symm) inside other unread written
  rw [Instr.resultIds, List.length_map] at results
  obtain ⟨g, assigned, stepped⟩ := lanesDelivered known meets rest op unnamed reaching values
    writes count long results
  rw [stepped]
  have mirrored := bufferMirrors known mirrors rest op lowered segments address inside
    (by rw [List.length_map, count, results]) assigned
  have place := Machine.assignPlace assigned
  refine .running path (meets.related.onward mirrored place.1 place.2 ?_) fun none => by cases none
  exact meets.related.memory.writeHidden
    (fun k offset => bufferHidden known meets mirrors here lowered.framed) stored

end Builtins

theorem builtinAnswered {hit : Builtin.Registry.SymbolHit} (known : Comparable c p p')
    (backed : c.registry.Backed) (linkable : Linkable c p) (meets : Meeting c p p' s s')
    (mirrors : Mirrors c p p' fn s.frame s'.frame) (rest : s.frame.rest = i :: after)
    (op : i.op = .call) (unnamed : p.functionNamed? i.callee = none)
    (found : c.registry.findSymbol? i.callee = some hit) :
    Answered c p p' s s' ((referenceMachine c p p').step s i after) := by
  obtain ⟨own, left, written, segment, segments⟩ := mirrors.ahead rest
  obtain ⟨σ, target, e, lowered⟩ := callLowered op segment
  obtain ⟨flat, routine, entry, n, type, reaching⟩ :=
    builtinReaching known backed linkable mirrors rest op unnamed found lowered.resolves
  cases buffer : target.plan.usesBuffer with
  | true =>
    exact bufferAnswered known meets mirrors rest op unnamed lowered reaching segments written buffer
  | false =>
    exact directAnswered known meets mirrors rest op unnamed lowered reaching segments written buffer

end Lowering
end FixedIL
