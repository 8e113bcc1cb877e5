import FixedIL.Proofs.Numbering
import FixedIL.Proofs.ReturnPlans

/-!
What a call by a return plan writes. Results take the wanted ids as far as these go and fresh ones
behind them, be it as results of the call or of the loads from a new slot.
-/
namespace FixedIL
namespace Emit

def resultIds (next : Nat) (count : Nat) (ids : List TempId) : List TempId :=
  ids.take count ++ freshIds next (count - ids.length)

section ResultIds

variable {next count : Nat} {ids : List TempId} {id : TempId}

theorem resultIdsGiven (count : Nat) (id : TempId) (ids : List TempId) :
    resultIds next (count + 1) (id :: ids) = id :: resultIds next count ids := by
  simp [resultIds]

theorem resultIdsFresh (next : TempId) (count : Nat) :
    resultIds next.toNat (count + 1) [] = next :: resultIds (next.toNat + 1) count [] := by
  simp [resultIds, freshIds, List.range'_succ]

theorem resultIdsCount : (resultIds next count ids).length = count := by
  simp only [resultIds, freshIds, List.length_append, List.length_take, List.length_map,
    List.length_range']
  omega

theorem resultIdsWanted {k : Nat} (wanted : k < ids.length) (inside : k < count) :
    (resultIds next count ids)[k]? = ids[k]? := by
  have taken : k < (ids.take count).length := by
    rw [List.length_take]
    omega
  rw [resultIds, List.getElem?_append_left taken, List.getElem?_take_of_lt inside]

theorem memResultIds (room : next + (count - ids.length) < UInt32.size)
    (member : id ∈ resultIds next count ids) :
    id ∈ ids.take count ∨ next ≤ id.toNat ∧ id.toNat < next + (count - ids.length) := by
  rcases List.mem_append.mp member with given | fresh
  · exact .inl given
  · exact .inr (memFreshIds (fitsBelow room) fresh)

theorem resultIdsOnce (room : next + (count - ids.length) < UInt32.size) (once : ids.Nodup)
    (reserved : ∀ id ∈ ids, id.toNat < next) : (resultIds next count ids).Nodup := by
  have fits : Fits next (count - ids.length) := fitsBelow room
  apply List.nodup_append.mpr
  constructor
  · exact once.sublist (List.take_sublist count ids)
  · constructor
    · exact freshIdsOnce fits
    · intro given member fresh among same
      have below := reserved given (List.mem_of_mem_take member)
      have above := (memFreshIds fits among).1
      rw [same] at below
      omega

structure Numbers (next : TempId) (wanted results : List TempId) (n : Nat) : Prop where
  count : results.length = n
  once : results.Nodup
  given : ∀ k id, k < n → wanted[k]? = some id → results[k]? = some id
  fresh : ∀ k id, wanted.length ≤ k → results[k]? = some id → next ≤ id

theorem resultNumbers {first : TempId} (behind : first.toNat ≤ next)
    (room : next + (count - ids.length) < UInt32.size) (once : ids.Nodup)
    (reserved : ∀ id ∈ ids, id.toNat < first.toNat) :
    Numbers first ids (resultIds next count ids) count where
  count := resultIdsCount
  once := resultIdsOnce room once fun id member => Nat.lt_of_lt_of_le (reserved id member) behind
  given k id inside wanted := by
    rw [resultIdsWanted (List.getElem?_eq_some_iff.mp wanted).1 inside]
    exact wanted
  fresh k id behindWanted found := by
    have past : (ids.take count).length ≤ k := Nat.le_trans (List.length_take_le' _ _) behindWanted
    rw [resultIds, List.getElem?_append_right past] at found
    have above := (memFreshIds (fitsBelow room) (List.mem_of_getElem? found)).1
    exact UInt32.le_iff_toNat_le.mpr (Nat.le_trans behind above)

end ResultIds

section Run

variable {β : Type} {g : Ty × Nat → TempId → Emit β} {v : Ty × Nat → TempId → β}
  {c : Loc → Ty × Nat → TempId → List Instr}

theorem mapMRun {γ : Type} (f : γ → Emit β) (a : γ) (as : List γ) (e : Emission) :
    ((a :: as).mapM f).run e =
      (((f a).run e).1 :: ((as.mapM f).run ((f a).run e).2).1,
        ((as.mapM f).run ((f a).run e).2).2) := by
  rw [List.mapM_cons]
  rfl

def Records (g : Ty × Nat → TempId → Emit β) (v : Ty × Nat → TempId → β)
    (c : Loc → Ty × Nat → TempId → List Instr) : Prop :=
  ∀ p id (e : Emission), id.toNat < e.nextTemp.toNat →
    (g p id).run e = (v p id, { e with code := e.code ++ c e.loc p id })

theorem idsRun (records : Records g v c) (types : List Ty) (k : Nat) (ids : List TempId)
    (wanted : Nat → Option TempId) (asked : ∀ j, wanted (k + j) = ids[j]?) (e : Emission)
    (reserved : ∀ id ∈ ids, id.toNat < e.nextTemp.toNat)
    (room : e.nextTemp.toNat + (types.length - ids.length) < UInt32.size) :
    ∃ e', ((types.zipIdx k).mapM fun p : Ty × Nat => do g p (← idOr (wanted p.2))).run e =
        (List.zipWith v (types.zipIdx k) (resultIds e.nextTemp.toNat types.length ids), e') ∧
      e'.slots = e.slots ∧ e'.loc = e.loc ∧ e'.code = e.code ++ (List.zipWith (c e.loc)
        (types.zipIdx k) (resultIds e.nextTemp.toNat types.length ids)).flatten := by
  /- Ids that are asked for leave the counter alone, and they come first; behind them it is the
  counter that gives each id. -/
  induction types generalizing k ids e with
  | nil =>
    refine ⟨e, rfl, rfl, rfl, ?_⟩
    simp
  | cons t types ih =>
    have here : wanted k = ids[0]? := asked 0
    have later : ∀ j, wanted (k + 1 + j) = ids.tail[j]? := by
      intro j
      rw [Nat.add_assoc, Nat.add_comm 1 j, asked (j + 1), List.getElem?_tail]
    rw [List.length_cons] at room
    cases ids with
    | cons id ids =>
      rw [List.length_cons, Nat.add_sub_add_right] at room
      have one := records (t, k) id e (reserved id List.mem_cons_self)
      obtain ⟨e', run, slots, loc, code⟩ := ih (k + 1) ids later
        { e with code := e.code ++ c e.loc (t, k) id }
        (fun id member => reserved id (List.mem_cons_of_mem _ member)) room
      refine ⟨e', ?_, slots, loc, ?_⟩
      · have first : (do g (t, k) (← idOr (wanted k))).run e =
            (v (t, k) id, { e with code := e.code ++ c e.loc (t, k) id }) := by
          rw [here]
          exact one
        rw [List.zipIdx_cons, mapMRun, List.length_cons, resultIdsGiven, first, run]
        rfl
      · rw [code, List.zipIdx_cons, List.length_cons, resultIdsGiven]
        simp
    | nil =>
      rw [List.length_nil, Nat.sub_zero] at room
      have next : (e.nextTemp + 1).toNat = e.nextTemp.toNat + 1 := by
        rw [UInt32.toNat_add]
        exact Nat.mod_eq_of_lt (Nat.lt_of_le_of_lt (by simp) room)
      have one := records (t, k) e.nextTemp { e with nextTemp := e.nextTemp + 1 }
        (by simp only [next]; omega)
      obtain ⟨e', run, slots, loc, code⟩ := ih (k + 1) [] later
        { e with nextTemp := e.nextTemp + 1, code := e.code ++ c e.loc (t, k) e.nextTemp }
        (fun id member => nomatch member) (by simp only [next, List.length_nil]; omega)
      simp only [next] at run code
      refine ⟨e', ?_, slots, loc, ?_⟩
      · have first : (do g (t, k) (← idOr (wanted k))).run e =
            (v (t, k) e.nextTemp, { e with
              nextTemp := e.nextTemp + 1, code := e.code ++ c e.loc (t, k) e.nextTemp }) := by
          rw [here]
          exact one
        rw [List.zipIdx_cons, mapMRun, List.length_cons, resultIdsFresh, first, run]
        rfl
      · rw [code, List.zipIdx_cons, List.length_cons, resultIdsFresh]
        simp

end Run

section Repeated

variable {β : Type} {type : Ty} {plan : ReturnPlan} {ids : List TempId} {e : Emission} {n : Nat}

theorem zipRepeated (f : Ty × Nat → TempId → β) (k : Nat) (count : ids.length = n) :
    List.zipWith f ((List.replicate n type).zipIdx k) ids =
      (ids.zipIdx k).map fun q => f (type, q.2) q.1 := by
  subst count
  induction ids generalizing k with
  | nil => rfl
  | cons id ids ih =>
    rw [List.length_cons, List.replicate_succ, List.zipIdx_cons, List.zipIdx_cons,
      List.zipWith_cons_cons, ih, List.map_cons]

theorem repeatedRun (type : Ty) {g : Ty × Nat → TempId → Emit β} {v : Ty × Nat → TempId → β}
    {c : Loc → Ty × Nat → TempId → List Instr} (records : Records g v c)
    (reserved : ∀ id ∈ ids, id.toNat < e.nextTemp.toNat)
    (room : e.nextTemp.toNat + (n - ids.length) < UInt32.size) :
    ∃ e', ((List.replicate n type).zipIdx.mapM fun p : Ty × Nat => do
          g p (← idOr ids[p.2]?)).run e =
        ((resultIds e.nextTemp.toNat n ids).zipIdx.map fun q => v (type, q.2) q.1, e') ∧
      e'.slots = e.slots ∧ e'.loc = e.loc ∧ e'.code = e.code ++
        (resultIds e.nextTemp.toNat n ids).zipIdx.flatMap fun q => c e.loc (type, q.2) q.1 := by
  have count : (List.replicate n type).length = n := List.length_replicate
  obtain ⟨e', run, slots, loc, code⟩ := idsRun records (List.replicate n type) 0 ids (ids[·]?)
    (fun j => by rw [Nat.zero_add]) e reserved (by rw [count]; exact room)
  rw [count, zipRepeated _ 0 resultIdsCount] at run code
  exact ⟨e', run, slots, loc, code⟩

theorem zipIdxFirst {α : Type} (f : α → β) (k : Nat) (as : List α) :
    ((as.zipIdx k).map fun q => f q.1) = as.map f := by
  have firsts := List.zipIdx_map_fst k as
  conv =>
    rhs
    rw [← firsts, List.map_map]
  rfl

def callInstr (callee : String) (results : List Temp) (args : List Value) (loc : Loc) : Instr :=
  { Instr.blank .call with
    type := callType (results.map Temp.type), results := results, operands := args,
    callee := callee, loc := loc }

def loadInstrs (plan : ReturnPlan) (type : Ty) (buffer : Value) (first : Nat) (ids : List TempId)
    (loc : Loc) : List Instr :=
  (ids.zipIdx first).map fun q =>
    computing .load type [buffer, .int (Int64.ofNat (plan.offset q.2))] q.1 loc

structure Adding (x : Emit (List Value)) (e : Emission) (results : List TempId)
    (code : List Instr) (slots : List FrameSlot) : Prop where
  values : (x.run e).1 = results.map .temp
  code : (x.run e).2.code = e.code ++ code
  slots : (x.run e).2.slots = e.slots ++ slots

def CallsOnce (code : List Instr) (callee : String) (sig : Signature) : Prop :=
  ∃ i, callsOf code = [i] ∧ i.callee = callee ∧ i.operands.length = sig.params.length ∧
    i.results.length = sig.returns.length

/-- The lanes come through a new slot. Its address is passed on, and each lane is loaded from a
part of its own. -/
structure Buffered (e : Emission) (callee : String) (plan : ReturnPlan) (type : Ty)
    (args : List Value) (results : List TempId) (code : List Instr) (slots : List FrameSlot) :
    Prop where
  slot : ∃ slot, slots = [slot] ∧ slot.size.toNat = results.length * type.size
  code : ∃ buffer, code =
    computing .stackaddr .ptr [.int (Int64.ofNat e.slots.length), .int 0] buffer e.loc ::
    callInstr callee [] (.temp buffer :: args) e.loc ::
    loadInstrs plan type (.temp buffer) 0 results e.loc
  inside : ∀ k, k < results.length → plan.offset k + type.size ≤ results.length * type.size
  apart : ∀ j k, j < k → plan.offset j + type.size ≤ plan.offset k

theorem callsOnceDirect {callee : String} {args : List Value} {sig : Signature} {loc : Loc}
    (operands : args.length = sig.params.length) (results : ids.length = sig.returns.length) :
    CallsOnce [callInstr callee (ids.map (⟨·, type⟩)) args loc] callee sig :=
  ⟨_, rfl, rfl, operands, (List.length_map _).trans results⟩

theorem callsOnceBuffer {callee : String} {args : List Value} {sig : Signature} {loc : Loc}
    {buffer : TempId} {slot : Value} (operands : args.length = sig.params.length) :
    CallsOnce (computing .stackaddr .ptr [slot, .int 0] buffer loc ::
      callInstr callee [] (.temp buffer :: args) loc ::
      loadInstrs plan type (.temp buffer) 0 ids loc) callee
      ⟨⟨.ptr, .structReturn⟩ :: sig.params, []⟩ := by
  have loads : callsOf (loadInstrs plan type (.temp buffer) 0 ids loc) = [] := by
    apply List.filter_eq_nil_iff.mpr
    intro i member
    obtain ⟨q, -, rfl⟩ := List.mem_map.mp member
    exact Bool.false_ne_true
  refine ⟨callInstr callee [] (.temp buffer :: args) loc, ?_, rfl, congrArg Nat.succ operands, rfl⟩
  exact congrArg (callInstr callee [] (.temp buffer :: args) loc :: ·) loads

theorem directDefines {callee : String} {args : List Value} {loc : Loc} :
    definedIds [callInstr callee (ids.map (⟨·, type⟩)) args loc] = ids := by
  simp [definedIds, definedTemps, callInstr, Function.comp_def]

theorem bufferDefines {callee : String} {args : List Value} {loc : Loc} {buffer : TempId}
    {slot : Value} :
    definedIds (computing .stackaddr .ptr [slot, .int 0] buffer loc ::
      callInstr callee [] args loc :: loadInstrs plan type (.temp buffer) 0 ids loc) =
      buffer :: ids := by
  have loads : definedIds (loadInstrs plan type (.temp buffer) 0 ids loc) = ids := by
    rw [definedIds, definedTemps, loadInstrs, List.flatMap_map, List.map_flatMap]
    change (ids.zipIdx.flatMap fun q => [q.1]) = ids
    rw [← List.map_eq_flatMap]
    exact List.zipIdx_map_fst 0 ids
  exact congrArg (buffer :: ·) loads

theorem partInside (parts : plan.elementSize = type.size) {k : Nat} (inside : k < n) :
    plan.offset k + type.size ≤ n * type.size := by
  have upper := Nat.mul_le_mul_right type.size inside
  rw [Nat.succ_mul] at upper
  rw [ReturnPlan.offset, parts]
  exact upper

theorem partsApart (parts : plan.elementSize = type.size) {j k : Nat} (before : j < k) :
    plan.offset j + type.size ≤ plan.offset k := by
  have upper := partInside parts before
  rw [ReturnPlan.offset, ReturnPlan.offset, parts] at *
  exact upper

variable (types : plan.types = List.replicate n type)
  (reserved : ∀ id ∈ ids, id.toNat < e.nextTemp.toNat)

include types reserved

theorem numberedRun (room : e.nextTemp.toNat + (n - ids.length) < UInt32.size) :
    ∃ e', (numbered plan.types ids).run e =
        ((resultIds e.nextTemp.toNat n ids).map fun id => ⟨id, type⟩, e') ∧
      e'.slots = e.slots ∧ e'.loc = e.loc ∧ e'.code = e.code := by
  have records : Records (fun p id => pure ⟨id, p.1⟩) (fun p id => (⟨id, p.1⟩ : Temp))
      (fun _ _ _ => []) := by
    intro p id e below
    rw [List.append_nil]
    rfl
  obtain ⟨e', run, slots, loc, code⟩ := repeatedRun type records reserved room
  rw [zipIdxFirst fun id => (⟨id, type⟩ : Temp)] at run
  rw [← types] at run
  exact ⟨e', run, slots, loc, code.trans (by simp)⟩

theorem loadAllRun (buffer : Value) (room : e.nextTemp.toNat + (n - ids.length) < UInt32.size) :
    ∃ e', (loadAll plan buffer ids).run e =
        ((resultIds e.nextTemp.toNat n ids).map Value.temp, e') ∧
      e'.slots = e.slots ∧
      e'.code = e.code ++
        loadInstrs plan type buffer 0 (resultIds e.nextTemp.toNat n ids) e.loc := by
  have records : Records
      (fun p id => define .load p.1 [buffer, .int (Int64.ofNat (plan.offset p.2))] id)
      (fun _ id => .temp id) fun loc p id =>
        [computing .load p.1 [buffer, .int (Int64.ofNat (plan.offset p.2))] id loc] := by
    intro p id e below
    have kept : ¬ e.nextTemp ≤ id := fun le => Nat.not_le_of_lt below (UInt32.le_iff_toNat_le.mp le)
    rw [defineRun, if_neg kept]
  obtain ⟨e', run, slots, -, code⟩ := repeatedRun type records reserved room
  rw [zipIdxFirst Value.temp] at run
  rw [← types] at run
  exact ⟨e', run, slots, code.trans (by rw [loadInstrs, List.map_eq_flatMap])⟩

theorem directAdds (callee : String) (args : List Value) (direct : plan.usesBuffer = false)
    (room : e.nextTemp.toNat + (n - ids.length) < UInt32.size) :
    Adding (callByPlan callee plan args ids) e (resultIds e.nextTemp.toNat n ids)
      [callInstr callee ((resultIds e.nextTemp.toNat n ids).map (⟨·, type⟩)) args e.loc] [] := by
  obtain ⟨e', run, slots, loc, code⟩ := numberedRun types reserved room
  have split : callByPlan callee plan args ids = (do
      let results ← numbered plan.types ids
      callDefining callee results args
      return results.map fun r => .temp r.id) := by
    rw [callByPlan, direct]
    rfl
  constructor
  · rw [split, StateT.run_bind, run]
    exact List.map_map
  · rw [split, StateT.run_bind, run, ← code, ← loc]
    rfl
  · rw [split, StateT.run_bind, run, List.append_nil, ← slots]
    rfl

theorem bufferAdds (callee : String) (args : List Value) (buffer : plan.usesBuffer = true)
    (room : e.nextTemp.toNat + (n - ids.length) + 1 < UInt32.size) :
    Adding (callByPlan callee plan args ids) e (resultIds (e.nextTemp.toNat + 1) n ids)
      (computing .stackaddr .ptr [.int (Int64.ofNat e.slots.length), .int 0] e.nextTemp e.loc ::
        callInstr callee [] (.temp e.nextTemp :: args) e.loc ::
        loadInstrs plan type (.temp e.nextTemp) 0 (resultIds (e.nextTemp.toNat + 1) n ids) e.loc)
      [⟨plan.bufferSize.toUInt32, plan.bufferAlign.toUInt32⟩] := by
  have next : (e.nextTemp + 1).toNat = e.nextTemp.toNat + 1 := by
    rw [UInt32.toNat_add]
    exact Nat.mod_eq_of_lt (Nat.lt_of_le_of_lt (by simp) room)
  let called : Emission :=
    { e with
      nextTemp := e.nextTemp + 1
      slots := e.slots ++ [⟨plan.bufferSize.toUInt32, plan.bufferAlign.toUInt32⟩]
      code := e.code ++
        [computing .stackaddr .ptr [.int (Int64.ofNat e.slots.length), .int 0] e.nextTemp e.loc] ++
        [callInstr callee [] (.temp e.nextTemp :: args) e.loc] }
  have split : (callByPlan callee plan args ids).run e =
      (loadAll plan (.temp e.nextTemp) ids).run called := by
    rw [callByPlan, buffer, if_pos rfl, StateT.run_bind]
    change (StateT.run (emit .stackaddr .ptr _ >>= _) _) = _
    rw [StateT.run_bind, emitRun]
    rfl
  obtain ⟨e', run, slots, code⟩ := loadAllRun (e := called) types
    (fun id member => Nat.lt_of_lt_of_le (reserved id member) (by simp only [called, next]; omega))
    (.temp e.nextTemp) (by simp only [called, next]; omega)
  simp only [called, next] at run slots code
  have whole := split.trans run
  constructor
  · rw [whole]
  · rw [whole, code]
    simp
  · rw [whole, slots]

end Repeated
end Emit
end FixedIL
