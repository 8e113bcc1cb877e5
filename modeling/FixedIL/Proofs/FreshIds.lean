import FixedIL.Builder
import FixedIL.Proofs.CallEmission
import Mathlib.Algebra.Group.Nat.Defs

/-!
The builder hands out fresh ids. The counter stays above all that the current function defines and
all that was handed out since the counter last began: what reserves or skips ids only moves it on,
and what is written lies below it. It begins anew above the temporaries of a function when the
function is started, continued, or given a block while another one is current. To continue the
function that is current is one of these, so ids which were only reserved may then come again.
-/
namespace FixedIL

/-- The counter goes on behind the id; behind the last one it would begin again at zero. -/
def BelowLast (id : TempId) : Prop := id.toNat < 2 ^ 32 - 1

instance (id : TempId) : Decidable (BelowLast id) := by unfold BelowLast; infer_instance

theorem eachBelowLast {ids : List TempId} (small : ids.all (decide <| BelowLast ·) = true) :
    ∀ id ∈ ids, BelowLast id :=
  fun id member => of_decide_eq_true (List.all_eq_true.mp small id member)

theorem nextNat {id : TempId} (small : BelowLast id) : (id + 1).toNat = id.toNat + 1 := by
  have room : id.toNat < 2 ^ 32 - 1 := small
  rw [UInt32.toNat_add]
  exact Nat.mod_eq_of_lt (by change id.toNat + 1 < 2 ^ 32; omega)

theorem belowNext {id : TempId} (small : BelowLast id) : id < id + 1 := by
  rw [UInt32.lt_iff_toNat_lt, nextNat small]
  exact Nat.lt_succ_self _

theorem belowLast {id next : TempId} (below : id < next) : BelowLast id := by
  have less := UInt32.lt_iff_toNat_lt.mp below
  have bound := next.toNat_lt
  unfold BelowLast
  omega

namespace Emission

theorem skippedAbove {ids : List TempId} (small : ∀ id ∈ ids, BelowLast id) (next : TempId) :
    next ≤ ids.foldl (fun next id => if next ≤ id then id + 1 else next) next ∧
      ∀ id ∈ ids, id < ids.foldl (fun next id => if next ≤ id then id + 1 else next) next := by
  induction ids generalizing next with
  | nil => exact ⟨UInt32.le_refl _, List.forall_mem_nil _⟩
  | cons id rest ih =>
    obtain ⟨first, others⟩ := List.forall_mem_cons.mp small
    have moved : next ≤ (if next ≤ id then id + 1 else next) ∧
        id < (if next ≤ id then id + 1 else next) := by
      split
      · rename_i reached
        exact ⟨UInt32.le_trans reached (UInt32.le_of_lt (belowNext first)), belowNext first⟩
      · rename_i passed
        exact ⟨UInt32.le_refl _, UInt32.not_le.mp passed⟩
    obtain ⟨onward, above⟩ := ih others (if next ≤ id then id + 1 else next)
    exact ⟨UInt32.le_trans moved.1 onward,
      List.forall_mem_cons.mpr ⟨UInt32.lt_of_lt_of_le moved.2 onward, above⟩⟩

structure Advances (e e' : Emission) (handed : List TempId) : Prop where
  onward : e.nextTemp ≤ e'.nextTemp
  ordered : handed.Pairwise (· < ·)
  fresh : ∀ id ∈ handed, e.nextTemp ≤ id ∧ id < e'.nextTemp
  written : ∃ code, e'.code = e.code ++ code ∧ ∀ t ∈ definedTemps code, t.id < e'.nextTemp

variable {e mid e' : Emission} {handed handed' : List TempId}

theorem advancesNone (code : e'.code = e.code) (onward : e.nextTemp ≤ e'.nextTemp) :
    Advances e e' [] :=
  ⟨onward, .nil, List.forall_mem_nil _, [], by rw [code, List.append_nil], List.forall_mem_nil _⟩

theorem Advances.trans (first : Advances e mid handed) (second : Advances mid e' handed') :
    Advances e e' (handed ++ handed') := by
  obtain ⟨code, added, below⟩ := first.written
  obtain ⟨code', added', below'⟩ := second.written
  refine ⟨UInt32.le_trans first.onward second.onward, ?_, fun id member => ?_,
    code ++ code', by rw [added', added, List.append_assoc], fun t member => ?_⟩
  · refine List.pairwise_append.mpr ⟨first.ordered, second.ordered, fun id old id' new => ?_⟩
    exact UInt32.lt_of_lt_of_le (first.fresh id old).2 (second.fresh id' new).1
  · rcases List.mem_append.mp member with old | new
    · exact ⟨(first.fresh id old).1, UInt32.lt_of_lt_of_le (first.fresh id old).2 second.onward⟩
    · exact ⟨UInt32.le_trans first.onward (second.fresh id new).1, (second.fresh id new).2⟩
  · rw [definedTempsAppend] at member
    rcases List.mem_append.mp member with old | new
    · exact UInt32.lt_of_lt_of_le (below t old) second.onward
    · exact below' t new

theorem pushAdvances {i : Instr} (small : ∀ t ∈ i.results, BelowLast t.id) :
    Advances e (e.push i) [] := by
  obtain ⟨onward, above⟩ := skippedAbove (List.forall_mem_map.mpr small) e.nextTemp
  refine ⟨onward, .nil, List.forall_mem_nil _, [e.placed i], rfl, fun t member => ?_⟩
  have result : t ∈ i.results := by simpa [definedTemps, Emit.placedResults] using member
  exact above t.id (List.mem_map_of_mem result)

theorem reserveAdvances (small : BelowLast e.nextTemp) :
    Advances e (Emit.reserve.run e).2 [e.nextTemp] := by
  refine ⟨UInt32.le_of_lt (belowNext small), List.pairwise_singleton _ _,
    List.forall_mem_singleton.mpr ⟨UInt32.le_refl _, belowNext small⟩, [],
    (List.append_nil _).symm, List.forall_mem_nil _⟩

theorem emitAdvances {op : Opcode} {type : Ty} {operands : List Value}
    (small : BelowLast e.nextTemp) :
    Advances e ((Emit.emit op type operands).run e).2 [e.nextTemp] :=
  (reserveAdvances small).trans (pushAdvances
    (i := { Instr.blank op with
      type := type, operands := operands, results := [⟨e.nextTemp, type⟩] })
    (List.forall_mem_singleton.mpr small))

theorem freshTempsAdvance (types : List Ty) (e : Emission)
    (small : ∀ t ∈ ((Emit.freshTemps types).run e).1, BelowLast t.id) :
    Advances e ((Emit.freshTemps types).run e).2
      (((Emit.freshTemps types).run e).1.map Temp.id) := by
  induction types generalizing e with
  | nil => exact advancesNone rfl (UInt32.le_refl _)
  | cons type rest ih =>
    rw [Emit.freshTemps, Emit.mapMRun] at small ⊢
    obtain ⟨first, others⟩ := List.forall_mem_cons.mp small
    exact (reserveAdvances first).trans (ih (Emit.reserve.run e).2 others)

theorem callAdvances {callee : String} {types : List Ty} {args : List Value}
    (small : ∀ t ∈ ((Emit.freshTemps types).run e).1, BelowLast t.id) :
    Advances e ((Emit.call callee types args).run e).2
      (((Emit.freshTemps types).run e).1.map Temp.id) := by
  have reserved := freshTempsAdvance types e small
  rw [← List.append_nil (((Emit.freshTemps types).run e).1.map Temp.id)]
  exact reserved.trans (pushAdvances (i := { Instr.blank .call with
    type := Emit.callType (((Emit.freshTemps types).run e).1.map Temp.type),
    results := ((Emit.freshTemps types).run e).1, operands := args, callee := callee }) small)

end Emission

def idsOf (vs : List Value) : List TempId :=
  vs.filterMap fun
    | .temp id => some id
    | _ => none

theorem idsOfTemps (ts : List Temp) : idsOf (ts.map fun t => .temp t.id) = ts.map Temp.id := by
  rw [idsOf, List.filterMap_map, ← List.filterMap_eq_map]
  rfl

namespace Builder

inductive Emitting where
  | reserve
  | reserveBelow (id : TempId)
  | setLoc (loc : Loc)
  | append (i : Instr)
  | emit (op : Opcode) (type : Ty) (operands : List Value)
  | iconst (type : Ty) (n : Int64)
  | fconst (type : Ty) (x : Float)
  | select (type : Ty) (c a b : Value)
  | stackAddr (slot : Nat) (offset : Int64)
  | load (type : Ty) (address : Value) (offset : Int64)
  | store (type : Ty) (address value : Value) (offset : Int64)
  | call (callee : String) (types : List Ty) (args : List Value)
  | br (label : String) (args : List Value)
  | cbr (c : Value) (thenLabel : String) (thenArgs : List Value) (elseLabel : String)
      (elseArgs : List Value)
  | ret (values : List Value)

namespace Emitting

def values : Emitting → Emit (List Value)
  | .reserve => return [.temp (← Emit.reserve)]
  | .reserveBelow id => do Emit.reserveBelow id; return []
  | .setLoc loc => do Emit.setLoc loc; return []
  | .append i => do Emit.append i; return []
  | .emit op type operands => return [← Emit.emit op type operands]
  | .iconst type n => return [← Emit.iconst type n]
  | .fconst type x => return [← Emit.fconst type x]
  | .select type c a b => return [← Emit.select type c a b]
  | .stackAddr slot offset => return [← Emit.stackAddr slot offset]
  | .load type address offset => return [← Emit.load type address offset]
  | .store type address value offset => do Emit.store type address value offset; return []
  | .call callee types args => Emit.call callee types args
  | .br label args => do Emit.br label args; return []
  | .cbr c l args l' args' => do Emit.cbr c l args l' args'; return []
  | .ret values => do Emit.ret values; return []

def chosen : Emitting → List TempId
  | .append i => i.results.map Temp.id
  | _ => []

theorem advances (x : Emitting) (e : Emission)
    (small : ∀ id ∈ idsOf (x.values.run e).1 ++ x.chosen, BelowLast id) :
    e.Advances (x.values.run e).2 (idsOf (x.values.run e).1) := by
  have handed : ∀ id ∈ idsOf (x.values.run e).1, BelowLast id := fun id member =>
    small id (List.mem_append_left _ member)
  cases x with
  | reserve => exact Emission.reserveAdvances (handed _ List.mem_cons_self)
  | reserveBelow id =>
    refine Emission.advancesNone ?_ ?_
    · change (ite _ _ _ : Emission).code = e.code
      split <;> rfl
    · change e.nextTemp ≤ (ite _ _ _ : Emission).nextTemp
      split
      · exact UInt32.le_of_lt ‹_›
      · exact UInt32.le_refl _
  | setLoc loc => exact Emission.advancesNone rfl (UInt32.le_refl _)
  | append i =>
    exact Emission.pushAdvances fun t result =>
      small t.id (List.mem_append_right _ (List.mem_map_of_mem result))
  | emit | iconst | fconst | select | stackAddr | load =>
    exact Emission.emitAdvances (handed _ List.mem_cons_self)
  | store | br | cbr | ret => exact Emission.pushAdvances (List.forall_mem_nil _)
  | call callee types args =>
    have given : idsOf ((Emit.call callee types args).run e).1 =
        ((Emit.freshTemps types).run e).1.map Temp.id := idsOfTemps _
    rw [values, given] at handed ⊢
    exact Emission.callAdvances (List.forall_mem_map.mp handed)

end Emitting

/-- The program changes under the builder, which keeps to the current function: ids are handed out
from the counter on, and the temporaries that a function gains lie below it. -/
structure Onward (b b' : Builder) (handed : List TempId) : Prop where
  current : b'.current = b.current
  onward : b.nextTemp ≤ b'.nextTemp
  ordered : handed.Pairwise (· < ·)
  fresh : ∀ id ∈ handed, b.nextTemp ≤ id ∧ id < b'.nextTemp
  gained : ∀ f, ∀ t ∈ (b'.function f).temps, t ∈ (b.function f).temps ∨ t.id < b'.nextTemp

section Changes

variable {b : Builder} {f g : Nat} {t : Temp}

theorem onwardNone {b' : Builder} (current : b'.current = b.current)
    (next : b'.nextTemp = b.nextTemp)
    (kept : ∀ f, ∀ t ∈ (b'.function f).temps, t ∈ (b.function f).temps) : Onward b b' [] :=
  ⟨current, next ▸ UInt32.le_refl _, .nil, List.forall_mem_nil _, fun f t member =>
    .inl (kept f t member)⟩

theorem functionModified (b : Builder) (f g : Nat) (change : Function → Function) :
    (b.modifyFunction f change).function g = b.function g ∨
      (b.modifyFunction f change).function g = change (b.function g) := by
  have found : (b.program.functions.modify f change)[g]? =
      (b.program.functions[g]?).map fun h => if f = g then change h else h :=
    List.getElem?_modify ..
  simp only [function, modifyFunction, found]
  cases b.program.functions[g]? with
  | none => exact .inl rfl
  | some h =>
    by_cases here : f = g
    · exact .inr (by simp [here])
    · exact .inl (by simp [here])

theorem slotsModified {slots : List FrameSlot}
    (member : t ∈ ((b.modifyFunction f fun h => { h with slots := slots }).function g).temps) :
    t ∈ (b.function g).temps := by
  rcases functionModified b f g fun h => { h with slots := slots } with same | changed
  · exact same ▸ member
  · rw [changed] at member
    exact member

theorem memModify {α : Type} {change : α → α} {as : List α} {k : Nat} {a : α}
    (member : a ∈ as.modify k change) : a ∈ as ∨ ∃ old ∈ as, a = change old := by
  obtain ⟨j, found⟩ := List.getElem?_of_mem member
  rw [List.getElem?_modify] at found
  obtain ⟨old, inside, rfl⟩ := Option.map_eq_some_iff.mp found
  have among := List.mem_of_getElem? inside
  split
  · exact .inr ⟨old, among, rfl⟩
  · exact .inl among

theorem codeAppended {code : List Instr} (member : t ∈ ((b.appendCode code).function g).temps) :
    t ∈ (b.function g).temps ∨ t ∈ definedTemps code := by
  unfold appendCode at member
  split at member
  · exact .inl member
  · rename_i p _
    let grown (bb : Block) : Block := { bb with instrs := bb.instrs ++ code }
    rcases functionModified b p.function g fun h =>
      { h with blocks := h.blocks.modify p.block grown } with same | changed
    · rw [same] at member
      exact .inl member
    · rw [changed] at member
      obtain ⟨bb, block, inside⟩ := List.mem_flatMap.mp member
      rcases memModify block with old | ⟨old, among, rfl⟩
      · exact .inl (List.mem_flatMap.mpr ⟨bb, old, inside⟩)
      · simp only [grown, Block.temps, List.flatMap_append, List.mem_append, ← or_assoc] at inside
        rcases inside with before | behind
        · exact .inl (List.mem_flatMap.mpr ⟨old, among, List.mem_append.mpr before⟩)
        · exact .inr behind

theorem currentAppended (b : Builder) (code : List Instr) :
    (b.appendCode code).current = b.current := by
  unfold appendCode
  split <;> rfl

theorem emitInOnward {α : Type} {x : Emit α} {handed : List TempId}
    (advances : Emission.Advances ⟨b.nextTemp, b.loc, (b.function f).slots, []⟩
      (x.run ⟨b.nextTemp, b.loc, (b.function f).slots, []⟩).2 handed) :
    Onward b (b.emitIn f x).2 handed := by
  obtain ⟨code, added, below⟩ := advances.written
  have whole : (x.run ⟨b.nextTemp, b.loc, (b.function f).slots, []⟩).2.code = code :=
    added.trans (List.nil_append _)
  refine ⟨currentAppended _ _, advances.onward, advances.ordered, advances.fresh,
    fun g t member => ?_⟩
  rcases codeAppended member with old | new
  · exact .inl (slotsModified old)
  · exact .inr (below t (by rw [← whole]; exact new))

theorem numberedUp (next : TempId) (types : List Ty)
    (small : ∀ t ∈ numberUp next types, BelowLast t.id) :
    next ≤ next + types.length.toUInt32 ∧
      ((numberUp next types).map Temp.id).Pairwise (· < ·) ∧
      ∀ t ∈ numberUp next types, next ≤ t.id ∧ t.id < next + types.length.toUInt32 := by
  induction types generalizing next with
  | nil =>
    have length : next + ([] : List Ty).length.toUInt32 = next := UInt32.add_zero next
    rw [length]
    exact ⟨UInt32.le_refl _, .nil, List.forall_mem_nil _⟩
  | cons type rest ih =>
    obtain ⟨first, others⟩ := List.forall_mem_cons.mp small
    obtain ⟨onward, ordered, fresh⟩ := ih (next + 1) others
    have length : next + (type :: rest).length.toUInt32 = next + 1 + rest.length.toUInt32 := by
      rw [List.length_cons, Nat.toUInt32_eq, Nat.toUInt32_eq, UInt32.ofNat_add,
        UInt32.add_comm (UInt32.ofNat _), ← UInt32.add_assoc]
      rfl
    have here : next < next + 1 := belowNext first
    rw [length]
    refine ⟨UInt32.le_trans (UInt32.le_of_lt here) onward,
      List.pairwise_cons.mpr ⟨List.forall_mem_map.mpr fun t member => ?_, ordered⟩,
      List.forall_mem_cons.mpr ⟨⟨UInt32.le_refl _, UInt32.lt_of_lt_of_le here onward⟩,
        fun t member => ⟨?_, (fresh t member).2⟩⟩⟩
    · exact UInt32.lt_of_lt_of_le here (fresh t member).1
    · exact UInt32.le_trans (UInt32.le_of_lt here) (fresh t member).1

def resumed (b : Builder) (f : Nat) : Builder :=
  if b.current = some f then b else b.continueFunction f

theorem resumedFunction (b : Builder) (f g : Nat) :
    (b.resumed f).function g = b.function g := by
  unfold resumed
  split <;> rfl

theorem createBlockOnward {label : String} {types : List Ty}
    (small : ∀ t ∈ (b.createBlock f label types).1, BelowLast t.id) :
    Onward (b.resumed f) (b.createBlock f label types).2
      ((b.createBlock f label types).1.map Temp.id) := by
  obtain ⟨onward, ordered, fresh⟩ := numberedUp (b.resumed f).nextTemp types small
  refine ⟨rfl, onward, ordered, List.forall_mem_map.mpr fresh, fun g t member => ?_⟩
  let params := numberUp (b.resumed f).nextTemp types
  rcases functionModified (b.resumed f) f g fun h =>
    { h with blocks := h.blocks ++ [⟨label, params, []⟩] } with same | changed
  · exact .inl (same ▸ member)
  · have temps : ((b.createBlock f label types).2.function g).temps =
        ((b.resumed f).function g).temps ++ params := by
      have grown : (b.createBlock f label types).2.function g = { (b.resumed f).function g with
        blocks := ((b.resumed f).function g).blocks ++ [⟨label, params, []⟩] } := changed
      rw [grown]
      simp [Function.temps, Block.temps]
    rw [temps] at member
    exact (List.mem_append.mp member).imp id fun new => (fresh t new).2

end Changes

inductive Use where
  | addExtern (name : String) (sig : Signature)
  | startFunction (name : String) (sig : Signature)
  | continueFunction (f : Nat)
  | addEntryBlock (f : Nat) (label : String)
  | createBlock (f : Nat) (label : String) (types : List Ty)
  | addSlot (f : Nat) (size align : UInt32)
  | setInsertPoint (p : InsertPoint)
  | emitting (x : Emitting)

namespace Use

def run (b : Builder) : Use → List TempId × Builder
  | .addExtern name sig => ([], b.addExtern name sig)
  | .startFunction name sig => ([], (b.startFunction name sig).2)
  | .continueFunction f => ([], b.continueFunction f)
  | .addEntryBlock f label =>
    let (params, b) := b.addEntryBlock f label
    (params.map Temp.id, b)
  | .createBlock f label types =>
    let (params, b) := b.createBlock f label types
    (params.map Temp.id, b)
  | .addSlot f size align => ([], (b.emitIn f (Emit.addSlot size align)).2)
  | .setInsertPoint p => ([], b.setInsertPoint p)
  | .emitting x =>
    let (given, b) := b.emit x.values
    (idsOf given, b)

def handedOut (b : Builder) (u : Use) : List TempId := (u.run b).1

def after (b : Builder) (u : Use) : Builder := (u.run b).2

def chosen : Use → List TempId
  | .emitting x => x.chosen
  | _ => []

-- The function need not be another one than before: to continue it is enough.
def restarts (b : Builder) : Use → Bool
  | .startFunction .. | .continueFunction _ => true
  | .addEntryBlock f _ | .createBlock f _ _ => b.current != some f
  | _ => false

def entered (b : Builder) : Use → Builder
  | .startFunction name sig => (b.startFunction name sig).2
  | .continueFunction f => b.continueFunction f
  | .addEntryBlock f _ | .createBlock f _ _ => b.resumed f
  | _ => b

theorem onward {b : Builder} {u : Use}
    (small : ∀ id ∈ u.handedOut b ++ u.chosen, BelowLast id) :
    Onward (u.entered b) (u.after b) (u.handedOut b) := by
  have handed : ∀ id ∈ u.handedOut b, BelowLast id := fun id member =>
    small id (List.mem_append_left _ member)
  cases u with
  | addExtern | setInsertPoint | startFunction | continueFunction =>
    exact onwardNone rfl rfl fun _ _ member => member
  | addEntryBlock | createBlock => exact createBlockOnward (List.forall_mem_map.mp handed)
  | addSlot f size align =>
    have still : Emission.Advances ⟨b.nextTemp, b.loc, (b.function f).slots, []⟩
        ((Emit.addSlot size align).run ⟨b.nextTemp, b.loc, (b.function f).slots, []⟩).2 [] :=
      Emission.advancesNone rfl (UInt32.le_refl _)
    exact emitInOnward still
  | emitting x => exact emitInOnward (x.advances _ small)

end Use

/-- The counter is above what the current function defines and above the ids handed out, and every
temporary of the program has an id that can be counted on from. -/
structure Sound (b : Builder) (handed : List TempId) : Prop where
  known : ∀ f, ∀ t ∈ (b.function f).temps, BelowLast t.id
  defined : ∀ f, b.current = some f → ∀ t ∈ (b.function f).temps, t.id < b.nextTemp
  handed : ∀ id ∈ handed, id < b.nextTemp

section Soundness

variable {b b' : Builder} {handed ids : List TempId} {f : Nat}

theorem Sound.continued (sound : Sound b handed) (f : Nat) : Sound (b.continueFunction f) [] := by
  refine ⟨sound.known, fun g current t member => ?_, List.forall_mem_nil _⟩
  cases current
  have small : t.id.toNat < 2 ^ 32 - 1 := sound.known f t member
  exact UInt32.lt_iff_toNat_lt.mpr
    (Function.tempBelowNext member (by change t.id.toNat + 1 < 2 ^ 32; omega))

theorem startedTemps (b : Builder) (name : String) (sig : Signature) (g : Nat) :
    ((b.startFunction name sig).2.function g).temps = (b.function g).temps := by
  have found : ((b.startFunction name sig).2.function g) =
      ((b.program.functions ++ [.blank name sig])[g]?).getD default := rfl
  rw [found, function]
  rcases Nat.lt_trichotomy g b.program.functions.length with inside | last | outside
  · rw [List.getElem?_append_left inside]
  · subst last
    rw [List.getElem?_concat_length, List.getElem?_eq_none (Nat.le_refl _)]
    rfl
  · rw [List.getElem?_eq_none (by rw [List.length_append]; exact outside),
      List.getElem?_eq_none (Nat.le_of_lt outside)]

theorem Sound.started (sound : Sound b handed) (name : String) (sig : Signature) :
    Sound (b.startFunction name sig).2 [] := by
  refine ⟨fun g t member => ?_, fun g current t member => ?_, List.forall_mem_nil _⟩
  · rw [startedTemps] at member
    exact sound.known g t member
  · cases current
    have fresh : (b.function b.program.functions.length).temps = [] := by
      rw [function, List.getElem?_eq_none (Nat.le_refl _)]
      rfl
    rw [startedTemps, fresh] at member
    cases member

def Use.since (u : Use) (b : Builder) (handed : List TempId) : List TempId :=
  if u.restarts b then [] else handed

theorem Use.enteredSound {u : Use} (sound : Sound b handed) :
    Sound (u.entered b) (u.since b handed) := by
  cases u with
  | addExtern | addSlot | setInsertPoint | emitting => exact sound
  | startFunction name sig => exact sound.started name sig
  | continueFunction f => exact sound.continued f
  | addEntryBlock f | createBlock f =>
    by_cases current : b.current = some f
    · simpa [entered, since, restarts, resumed, current] using sound
    · simpa [entered, since, restarts, resumed, current] using sound.continued f

theorem Use.enteredTemps (u : Use) (b : Builder) (f : Nat) :
    ((u.entered b).function f).temps = (b.function f).temps := by
  cases u with
  | addExtern | addSlot | setInsertPoint | emitting | continueFunction => rfl
  | startFunction name sig => exact startedTemps b name sig f
  | addEntryBlock g | createBlock g => exact congrArg Function.temps (resumedFunction b g f)

theorem Sound.moved (sound : Sound b handed) (onward : Onward b b' ids) :
    Sound b' (handed ++ ids) := by
  refine ⟨fun f t member => ?_, fun f current t member => ?_, fun id member => ?_⟩
  · exact (onward.gained f t member).elim (sound.known f t) belowLast
  · refine (onward.gained f t member).elim (fun old => ?_) id
    rw [onward.current] at current
    exact UInt32.lt_of_lt_of_le (sound.defined f current t old) onward.onward
  · rcases List.mem_append.mp member with old | new
    · exact UInt32.lt_of_lt_of_le (sound.handed id old) onward.onward
    · exact (onward.fresh id new).2

end Soundness

/-- A builder, and what it has handed out since its counter last began. -/
structure Tally where
  builder : Builder
  handed : List TempId

namespace Tally

def opened (p : Program) : Tally := ⟨⟨p, none, none, 0, .unknown⟩, []⟩

def next (t : Tally) (u : Use) : Tally :=
  ⟨u.after t.builder, u.since t.builder t.handed ++ u.handedOut t.builder⟩

def after (t : Tally) (us : List Use) : Tally := us.foldl next t

def mentioned (t : Tally) : List Use → List TempId
  | [] => []
  | u :: rest => u.handedOut t.builder ++ u.chosen ++ (t.next u).mentioned rest

variable {t : Tally} {u : Use} {us : List Use}

def Fresh (t : Tally) : Prop := Sound t.builder t.handed

theorem openedFresh {p : Program} (known : ∀ f ∈ p.functions, ∀ d ∈ f.temps, BelowLast d.id) :
    (opened p).Fresh := by
  refine ⟨fun f d member => ?_, fun f current => ?_, List.forall_mem_nil _⟩
  · have found : (opened p).builder.function f = (p.functions[f]?).getD default := rfl
    rw [found] at member
    cases inside : p.functions[f]? with
    | none =>
      rw [inside] at member
      cases member
    | some g =>
      rw [inside] at member
      exact known g (List.mem_of_getElem? inside) d member
  · cases current

theorem nextFresh (fresh : t.Fresh)
    (small : ∀ id ∈ u.handedOut t.builder ++ u.chosen, BelowLast id) : (t.next u).Fresh :=
  (Use.enteredSound fresh).moved (Use.onward small)

theorem afterFresh (fresh : t.Fresh) (small : ∀ id ∈ t.mentioned us, BelowLast id) :
    (t.after us).Fresh := by
  induction us generalizing t with
  | nil => exact fresh
  | cons u rest ih =>
    have parts := List.forall_mem_append.mp small
    exact ih (nextFresh fresh parts.1) parts.2

theorem mentionedLast : t.mentioned (us ++ [u]) =
    t.mentioned us ++ (u.handedOut (t.after us).builder ++ u.chosen) := by
  induction us generalizing t with
  | nil => simp [mentioned, after]
  | cons v rest ih =>
    rw [List.cons_append, mentioned, ih, mentioned, ← List.append_assoc]
    rfl

end Tally

/-- Whatever is done with a builder, and wherever code is put: the ids that come next are handed out
in rising order, above every id that the function current then defines and above every id handed
out since that function was last started, continued, or resumed by a block that it was given, as
long as ids stay below the last one. -/
theorem handedOutFresh {p : Program} {us : List Use} {u : Use}
    (known : ∀ f ∈ p.functions, ∀ t ∈ f.temps, BelowLast t.id)
    (small : ∀ id ∈ (Tally.opened p).mentioned (us ++ [u]), BelowLast id) :
    let before := (Tally.opened p).after us
    (u.handedOut before.builder).Pairwise (· < ·) ∧
      ∀ id ∈ u.handedOut before.builder,
        (∀ f, (u.after before.builder).current = some f →
          ∀ t ∈ (before.builder.function f).temps, t.id < id) ∧
        ∀ old ∈ u.since before.builder before.handed, old < id := by
  rw [Tally.mentionedLast] at small
  obtain ⟨earlier, here⟩ := List.forall_mem_append.mp small
  have fresh := Tally.afterFresh (Tally.openedFresh known) earlier
  have sound := Use.enteredSound (u := u) fresh
  have onward := Use.onward here
  refine ⟨onward.ordered, fun id member => ⟨fun f current t defined => ?_, fun old among => ?_⟩⟩
  · rw [onward.current] at current
    rw [← Use.enteredTemps u] at defined
    exact UInt32.lt_of_lt_of_le (sound.defined f current t defined) (onward.fresh id member).1
  · exact UInt32.lt_of_lt_of_le (sound.handed old among) (onward.fresh id member).1

def counted : Program :=
  ⟨[], [⟨"counted", ⟨[⟨.i32, .normal⟩], []⟩, [⟨"entry", [⟨7, .i32⟩], []⟩], [], []⟩]⟩

/-- The function goes on with an id that the caller chose, another one is begun, and a block for
the first makes it current again. -/
def interleaved : List Use :=
  [.continueFunction 0, .setInsertPoint ⟨0, 0⟩, .emitting .reserve,
    .emitting (.append { Instr.blank .iconst with
      type := .i32, results := [⟨40, .i32⟩], operands := [.int 5] }),
    .emitting (.iconst .i32 6), .startFunction "second" ⟨[⟨.i32, .normal⟩], []⟩,
    .addEntryBlock 1 "entry", .createBlock 0 "next" [.i32, .i1], .setInsertPoint ⟨0, 1⟩,
    .emitting .reserve, .emitting (.reserveBelow 50)]

theorem callAfterInterleaving :
    (∀ f ∈ counted.functions, ∀ t ∈ f.temps, BelowLast t.id) ∧
    (∀ id ∈ (Tally.opened counted).mentioned
      (interleaved ++ [.emitting (.call "pair" [.i32, .i32] [])]), BelowLast id) ∧
    (Use.emitting (.call "pair" [.i32, .i32] [])).handedOut
      ((Tally.opened counted).after interleaved).builder = [50, 51] ∧
    (((Tally.opened counted).after interleaved).builder.function 0).temps.map Temp.id =
      [7, 40, 41, 42, 43] ∧
    ((Tally.opened counted).after interleaved).handed = [42, 43, 44] ∧
    ∀ id ∈ [(50 : TempId), 51], (∀ d ∈ [(7 : TempId), 40, 41, 42, 43], d < id) ∧
      ∀ old ∈ [(42 : TempId), 43, 44], old < id := by
  have known : ∀ f ∈ counted.functions, ∀ t ∈ f.temps, BelowLast t.id := by decide
  have small : ∀ id ∈ (Tally.opened counted).mentioned
      (interleaved ++ [.emitting (.call "pair" [.i32, .i32] [])]), BelowLast id :=
    eachBelowLast (by decide +kernel)
  have given : (Use.emitting (.call "pair" [.i32, .i32] [])).handedOut
      ((Tally.opened counted).after interleaved).builder = [50, 51] := by decide +kernel
  have defined : (((Tally.opened counted).after interleaved).builder.function 0).temps.map Temp.id =
      [7, 40, 41, 42, 43] := by decide +kernel
  have handed : ((Tally.opened counted).after interleaved).handed = [42, 43, 44] := by
    decide +kernel
  have fresh := (handedOutFresh known small).2
  refine ⟨known, small, given, defined, handed, fun id member => ?_⟩
  obtain ⟨above, since⟩ := fresh id (given ▸ member)
  refine ⟨?_, fun old among => since old (handed ▸ among)⟩
  rw [← defined]
  exact List.forall_mem_map.mpr (above 0 (by decide +kernel))

/-- The ids handed out while the function that is current at the end was current. What continues it
meanwhile does not count. -/
def handedWhileCurrent (b : Builder) (handed : List TempId) : List Use → List TempId
  | [] => handed
  | u :: rest =>
    handedWhileCurrent (u.after b)
      ((if (u.after b).current = b.current then handed else []) ++ u.handedOut b) rest

def continuedTwice : List Use :=
  [.startFunction "f" ⟨[], []⟩, .emitting .reserve, .continueFunction 0]

/-- The id that was reserved comes again, though no other function was current in between. -/
theorem reservedAgain :
    (∀ id ∈ (Tally.opened ⟨[], []⟩).mentioned (continuedTwice ++ [.emitting .reserve]),
      BelowLast id) ∧
    ¬ ∀ id ∈ (Use.emitting .reserve).handedOut
        ((Tally.opened ⟨[], []⟩).after continuedTwice).builder,
      ∀ old ∈ handedWhileCurrent (Tally.opened ⟨[], []⟩).builder [] continuedTwice, old ≠ id := by
  have given : (Use.emitting .reserve).handedOut
      ((Tally.opened ⟨[], []⟩).after continuedTwice).builder = [0] := by decide +kernel
  have handed : handedWhileCurrent (Tally.opened ⟨[], []⟩).builder [] continuedTwice = [0] := by
    decide +kernel
  refine ⟨eachBelowLast (by decide +kernel), fun fresh => ?_⟩
  rw [given, handed] at fresh
  exact fresh 0 List.mem_cons_self 0 List.mem_cons_self rfl

end Builder
end FixedIL
