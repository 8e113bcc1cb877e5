import FixedIL.Emission
import FixedIL.Proofs.Definitions
import FixedIL.Proofs.Reachability

/-!
Code without control, written by an emission and run where it was written. What is known
of a register stays true while only fresh temporaries are written, so the value of a whole
sequence follows from the values of its instructions in the order in which they are emitted.
-/
namespace FixedIL

def Opcode.computes : Opcode → Bool
  | .stackaddr | .load | .store | .call | .br | .cbr | .ret => false
  | _ => true

namespace Frame

def put (f : Frame) (id : TempId) (w : Word) : Frame :=
  { f with regs := f.regs.setIfInBounds id.toNat w }

theorem writeInside {f : Frame} {id : TempId} (room : id.toNat < f.regs.size) (w : Word) :
    f.write? id w = some (f.put id w) := by
  simp [write?, put, room, Array.setIfInBounds]

theorem putSize (f : Frame) (id : TempId) (w : Word) :
    (f.put id w).regs.size = f.regs.size := by simp [put]

theorem putSame {f : Frame} {id : TempId} (room : id.toNat < f.regs.size) (w : Word) :
    (f.put id w).regs[id.toNat]? = some w := by simp [put, room]

theorem putOther (f : Frame) {id other : TempId} (different : other ≠ id) (w : Word) :
    (f.put id w).regs[other.toNat]? = f.regs[other.toNat]? := by
  have apart : id.toNat ≠ other.toNat := fun h => different (UInt32.toNat_inj.mp h.symm)
  simp [put, Array.getElem?_setIfInBounds_ne apart]

theorem valuePut (f : Frame) (d : FloatDomain) (id : TempId) (w : Word) {v : Value}
    (other : ∀ k, v = .temp k → k ≠ id) : (f.put id w).value? d v = f.value? d v := by
  cases v with
  | temp k => exact f.putOther (other k rfl) w
  | _ => rfl

/-- Every temporary that the code defines has a register, and the type that the function
gives it is the one it is defined with. -/
def Hosts (f : Frame) (code : List Instr) : Prop :=
  ∀ i ∈ code, ∀ t ∈ i.results, t.id.toNat < f.regs.size ∧ tempType f.fn t.id = t.type

structure Carries (f : Frame) (code : List Instr) : Prop where
  within : ∀ i ∈ code, ∃ b ∈ f.fn.blocks, i ∈ b.instrs
  once : f.fn.DefinesOnce
  regs : f.regs.size = f.fn.nextTemp.toNat
  room : ∀ i ∈ code, ∀ t ∈ i.results, t.id.toNat < f.regs.size

theorem Carries.hosts {f : Frame} {code : List Instr} (carries : f.Carries code) :
    f.Hosts code := by
  intro i hi t ht
  obtain ⟨b, hb, within⟩ := carries.within i hi
  exact ⟨carries.room i hi t ht, Function.tempTypeOnce carries.once (Function.memTemps hb within ht)⟩

end Frame

namespace Machine

variable {m : Machine} {s : State} {i : Instr} {after : List Instr} {words : List Word}

theorem accessComputes (computes : i.op.computes = true) :
    m.access s i words =
      match m.domain.compute s.frame.typeOf? i words with
      | .ok w => .ok (some w, s.memory)
      | .error cause => s.frame.trap i cause := by
  unfold access
  split
  · simp_all [Opcode.computes]
  · simp_all [Opcode.computes]
  · simp_all [Opcode.computes]
  · rfl

theorem stepPlain (computes : i.op.computes = true) : m.step s i after = m.plain s i after := by
  cases op : i.op <;> simp_all [Opcode.computes, step]

theorem stepComputes {t : Temp} {more : List Temp} {w : Word} (computes : i.op.computes = true)
    (read : s.frame.values? m.domain (i.operands.take i.op.minOperands) = some words)
    (made : m.domain.compute s.frame.typeOf? i words = .ok w)
    (result : i.results = t :: more) (room : t.id.toNat < s.frame.regs.size) :
    m.step s i after =
      .ok (.running { s with frame := { s.frame.put t.id w with rest := after } }) := by
  rw [stepPlain computes]
  simp [plain, read, accessComputes computes, made, Frame.define, result, Frame.orTrap,
    Frame.writeInside room, bind, Except.bind]

theorem stepComputesFails {cause : TrapCause} (computes : i.op.computes = true)
    (read : s.frame.values? m.domain (i.operands.take i.op.minOperands) = some words)
    (made : m.domain.compute s.frame.typeOf? i words = .error cause) :
    m.step s i after = .error (.trap s.frame.fn.name (some i) cause) := by
  rw [stepPlain computes]
  simp [plain, read, accessComputes computes, made, Frame.trap, Frame.orTrap, bind, Except.bind]

end Machine

structure Binding where
  value : Value
  type : Option Ty
  word : Word

class Knows (known : List Binding) (v : Value) (t : outParam (Option Ty)) (w : outParam Word) :
    Prop where
  cases : ⟨v, t, w⟩ ∈ known ∨ ∃ n, v = .int n ∧ t = none ∧ w = Word.ofInt64 n

instance Knows.literal {known : List Binding} {n : Int64} :
    Knows known (.int n) none (Word.ofInt64 n) :=
  ⟨.inr ⟨n, rfl, rfl, rfl⟩⟩

instance Knows.keep {known : List Binding} {k : Binding} {v : Value} {t : Option Ty} {w : Word}
    [knows : Knows known v t w] : Knows (k :: known) v t w :=
  ⟨knows.cases.imp_left (List.mem_cons_of_mem k)⟩

instance Knows.here {known : List Binding} {v : Value} {t : Option Ty} {w : Word} :
    Knows (⟨v, t, w⟩ :: known) v t w :=
  ⟨.inl List.mem_cons_self⟩

/-- Where the code begins. Fresh temporaries lie above `bound`; of those below, only
`result` may be written. -/
structure Frontier where
  start : State
  bound : TempId
  result : TempId
  inside : result.toNat < bound.toNat
  small : start.frame.regs.size < UInt32.size

namespace Frontier

def surroundings (s : State) : State := { s with frame := { s.frame with regs := #[], rest := [] } }

structure Scope (b : Frontier) (m : Machine) (known : List Binding) (e : Emission)
    (s : State) : Prop where
  above : b.bound.toNat ≤ e.nextTemp.toNat
  around : surroundings s = surroundings b.start
  size : s.frame.regs.size = b.start.frame.regs.size
  kept : ∀ id, id.toNat < b.bound.toNat → id ≠ b.result →
    s.frame.regs[id.toNat]? = b.start.frame.regs[id.toNat]?
  below : ∀ k ∈ known, ∀ id, k.value = .temp id → id.toNat < e.nextTemp.toNat
  holds : ∀ k ∈ known, s.frame.value? m.domain k.value = some k.word ∧
    s.frame.typeOf? k.value = k.type

structure Done (b : Frontier) (w : Word) (s : State) : Prop where
  around : surroundings s = surroundings b.start
  size : s.frame.regs.size = b.start.frame.regs.size
  kept : ∀ id, id.toNat < b.bound.toNat → id ≠ b.result →
    s.frame.regs[id.toNat]? = b.start.frame.regs[id.toNat]?
  result : s.frame.regs[b.result.toNat]? = some w

namespace Scope

variable {b : Frontier} {m : Machine} {known : List Binding} {e : Emission} {s : State}

theorem start {r : TempId} (inside : r.toNat < e.nextTemp.toNat)
    (small : s.frame.regs.size < UInt32.size)
    (below : ∀ k ∈ known, ∀ id, k.value = .temp id → id.toNat < e.nextTemp.toNat)
    (holds : ∀ k ∈ known, s.frame.value? m.domain k.value = some k.word ∧
      s.frame.typeOf? k.value = k.type) :
    Scope ⟨s, e.nextTemp, r, inside, small⟩ m known e s :=
  ⟨Nat.le_refl _, rfl, rfl, fun _ _ _ => rfl, below, holds⟩

theorem read (scope : b.Scope m known e s) {v : Value} {t : Option Ty} {w : Word}
    (knows : Knows known v t w) :
    s.frame.value? m.domain v = some w ∧ s.frame.typeOf? v = t := by
  rcases knows.cases with member | ⟨n, rfl, rfl, rfl⟩
  · exact scope.holds _ member
  · exact ⟨rfl, rfl⟩

theorem put (scope : b.Scope m known e s) {type : Ty} (w : Word) (code : List Instr)
    (room : e.nextTemp.toNat < s.frame.regs.size)
    (typed : Frame.tempType s.frame.fn e.nextTemp = type) (rest : List Instr) :
    b.Scope m (⟨.temp e.nextTemp, some type, w⟩ :: known)
      { e with nextTemp := e.nextTemp + 1, code := code }
      { s with frame := { s.frame.put e.nextTemp w with rest := rest } } := by
  have small := b.small
  have inside := b.inside
  have size := scope.size
  have above := scope.above
  have step : (e.nextTemp + 1).toNat = e.nextTemp.toNat + 1 := by
    rw [UInt32.toNat_add]
    exact Nat.mod_eq_of_lt (by simp_all [UInt32.size]; omega)
  have fresh {id : TempId} (old : id.toNat < e.nextTemp.toNat) : id ≠ e.nextTemp := by
    rintro rfl
    omega
  refine ⟨?_, scope.around, ?_, ?_, ?_, ?_⟩
  · simp only [step]
    omega
  · simpa [Frame.put] using size
  · intro id low other
    exact (Frame.putOther s.frame (fresh (by omega)) w).trans (scope.kept id low other)
  · intro k hk id isTemp
    rcases List.mem_cons.mp hk with rfl | hk
    · cases isTemp
      simp only [step]
      omega
    · have old := scope.below k hk id isTemp
      simp only [step]
      omega
  · intro k hk
    rcases List.mem_cons.mp hk with rfl | hk
    · exact ⟨Frame.putSame room w, congrArg some typed⟩
    · have old := scope.holds k hk
      refine ⟨(Frame.valuePut s.frame m.domain _ w fun id isTemp => ?_).trans old.1, ?_⟩
      · exact fresh (scope.below k hk id isTemp)
      · rw [← old.2]
        cases k.value <;> rfl

end Scope
end Frontier

namespace Emit

variable {α β : Type} {m : Machine} {stops : TrapCause → Prop}

def written (x : Emit α) (e : Emission) : List Instr := (x.run e).2.code.drop e.code.length

theorem writtenDiscard (x : Emit α) (e : Emission) :
    written (do let _ ← x) e = written x e := by
  rw [written, StateT.run_bind]
  rfl

/-- What the code written by `x` does to states that satisfy `P`: it is carried out to its
end, or stops for a cause that `stops` allows. `Q` gets the value, the emission behind `x`
and the condition that holds behind the code. -/
def Makes (m : Machine) (stops : TrapCause → Prop) (P : State → Prop) (x : Emit α) (e : Emission)
    (Q : α → Emission → (State → Prop) → Prop) : Prop :=
  ∃ code P', (x.run e).2.code = e.code ++ code ∧ Q (x.run e).1 (x.run e).2 P' ∧
    ∀ s after, P s → s.frame.rest = code ++ after → s.frame.Hosts code →
      (∃ s', m.Reaches code.length s s' ∧ s'.frame.rest = after ∧ s'.frame.fn = s.frame.fn ∧
        s'.frame.regs.size = s.frame.regs.size ∧ P' s') ∨
      (∃ n s' fn i cause, n < code.length ∧ m.Reaches n s s' ∧
        m.Fails s' (.trap fn (some i) cause) ∧ stops cause)

theorem makesPure {P : State → Prop} {a : α} {e : Emission}
    {Q : α → Emission → (State → Prop) → Prop} (h : Q a e P) : Makes m stops P (pure a) e Q :=
  ⟨[], P, (List.append_nil e.code).symm, h, fun s _ holds rest _ =>
    .inl ⟨s, .here s, rest, rfl, rfl, holds⟩⟩

theorem makesBind {P : State → Prop} {x : Emit α} {g : α → Emit β} {e : Emission}
    {Q : β → Emission → (State → Prop) → Prop}
    (h : Makes m stops P x e fun a e' P' => Makes m stops P' (g a) e' Q) :
    Makes m stops P (x >>= g) e Q := by
  obtain ⟨code, P', written, ⟨code', P'', written', q, runs'⟩, runs⟩ := h
  refine ⟨code ++ code', P'', ?_, ?_, ?_⟩
  · rw [StateT.run_bind]
    exact written'.trans (by rw [written, List.append_assoc])
  · rw [StateT.run_bind]
    exact q
  · intro s after holds rest hosts
    have hostsFirst : s.frame.Hosts code := fun i hi => hosts i (List.mem_append_left _ hi)
    rcases runs s (code' ++ after) holds (by rw [rest, List.append_assoc]) hostsFirst with
      ⟨mid, path, restMid, fnMid, sizeMid, holdsMid⟩ |
      ⟨n, mid, fn, i, cause, short, path, fails, allowed⟩
    · have hostsNext : mid.frame.Hosts code' := by
        intro i hi t ht
        rw [fnMid, sizeMid]
        exact hosts i (List.mem_append_right _ hi) t ht
      rcases runs' mid after holdsMid restMid hostsNext with
        ⟨final, path', restFinal, fnFinal, sizeFinal, holdsFinal⟩ |
        ⟨n, final, fn, i, cause, short, path', fails, allowed⟩
      · refine .inl ⟨final, ?_, restFinal, fnFinal.trans fnMid, sizeFinal.trans sizeMid,
          holdsFinal⟩
        rw [List.length_append]
        exact Machine.reachesTrans path path'
      · refine .inr ⟨code.length + n, final, fn, i, cause, ?_, Machine.reachesTrans path path',
          fails, allowed⟩
        rw [List.length_append]
        omega
    · refine .inr ⟨n, mid, fn, i, cause, ?_, path, fails, allowed⟩
      rw [List.length_append]
      omega

def computing (op : Opcode) (type : Ty) (operands : List Value) (id : TempId) (loc : Loc) :
    Instr :=
  { Instr.blank op with type := type, operands := operands, results := [⟨id, type⟩], loc := loc }

def emitted (op : Opcode) (type : Ty) (operands : List Value) (e : Emission) : Emission :=
  { e with
    nextTemp := e.nextTemp + 1
    code := e.code ++ [computing op type operands e.nextTemp e.loc] }

theorem emitRun (op : Opcode) (type : Ty) (operands : List Value) (e : Emission) :
    (emit op type operands).run e = (.temp e.nextTemp, emitted op type operands e) := by
  have skip : (if e.nextTemp + 1 ≤ e.nextTemp then e.nextTemp + 1 else e.nextTemp + 1) =
      e.nextTemp + 1 := ite_self _
  change (Value.temp e.nextTemp, Emission.mk (ite _ _ _) _ _ _) = _
  rw [skip]
  rfl

theorem defineRun (op : Opcode) (type : Ty) (operands : List Value) (id : TempId) (e : Emission) :
    (define op type operands id).run e =
      (.temp id, { e with
        nextTemp := if e.nextTemp ≤ id then id + 1 else e.nextTemp
        code := e.code ++ [computing op type operands id e.loc] }) := rfl

inductive KnowsAll (known : List Binding) : List Value → List Word → Prop where
  | nil : KnowsAll known [] []
  | cons {v : Value} {t : Option Ty} {w : Word} {vs : List Value} {ws : List Word}
      (head : Knows known v t w) (tail : KnowsAll known vs ws) :
      KnowsAll known (v :: vs) (w :: ws)

structure Yields (m : Machine) (known : List Binding) (op : Opcode) (type : Ty)
    (operands : List Value) (ws : List Word) (r : Except TrapCause Word) : Prop where
  computes : op.computes = true
  whole : operands.take op.minOperands = operands
  knows : KnowsAll known operands ws
  made : ∀ (typeOf? : Value → Option Ty) (id : TempId) (loc : Loc),
    (∀ v t w, Knows known v t w → typeOf? v = t) →
      m.domain.compute typeOf? (computing op type operands id loc) ws = r

section Step

variable {b : Frontier} {known : List Binding} {e : Emission} {op : Opcode} {type : Ty}
  {operands : List Value} {ws : List Word} {w : Word} {s : State} {id : TempId} {loc : Loc}
  {after : List Instr} {cause : TrapCause} {Q : Value → Emission → (State → Prop) → Prop}

theorem readAll (scope : b.Scope m known e s) (knows : KnowsAll known operands ws) :
    s.frame.values? m.domain operands = some ws := by
  induction knows with
  | nil => rfl
  | cons head tail ih =>
    simp only [Frame.values?] at ih
    simp [Frame.values?, (scope.read head).1, ih]

theorem stepYields (scope : b.Scope m known e s)
    (yields : Yields m known op type operands ws (.ok w))
    (room : id.toNat < s.frame.regs.size) :
    m.step s (computing op type operands id loc) after =
      .ok (.running { s with frame := { s.frame.put id w with rest := after } }) := by
  have read : s.frame.values? m.domain (operands.take op.minOperands) = some ws :=
    (congrArg _ yields.whole).trans (readAll scope yields.knows)
  refine Machine.stepComputes (t := ⟨id, type⟩) yields.computes read ?_ rfl room
  exact yields.made _ id loc fun v t w known => (scope.read known).2

theorem stepYieldsError (scope : b.Scope m known e s)
    (yields : Yields m known op type operands ws (.error cause)) :
    m.step s (computing op type operands id loc) after =
      .error (.trap s.frame.fn.name (some (computing op type operands id loc)) cause) := by
  have read : s.frame.values? m.domain (operands.take op.minOperands) = some ws :=
    (congrArg _ yields.whole).trans (readAll scope yields.knows)
  refine Machine.stepComputesFails yields.computes read ?_
  exact yields.made _ id loc fun v t w known => (scope.read known).2

theorem makesEmit (yields : Yields m known op type operands ws (.ok w))
    (q : ∀ id e', Q (.temp id) e' (b.Scope m (⟨.temp id, some type, w⟩ :: known) e')) :
    Makes m stops (b.Scope m known e) (emit op type operands) e Q := by
  refine ⟨[computing op type operands e.nextTemp e.loc],
    b.Scope m (⟨.temp e.nextTemp, some type, w⟩ :: known) (emitted op type operands e), ?_, ?_, ?_⟩
  · rw [emitRun]
    rfl
  · rw [emitRun]
    exact q _ _
  · intro s after scope rest hosts
    obtain ⟨room, typed⟩ := hosts _ List.mem_cons_self ⟨e.nextTemp, type⟩ List.mem_cons_self
    refine .inl ⟨_, Machine.reachesOne rest (stepYields scope yields room), rfl, rfl, ?_, ?_⟩
    · exact Frame.putSize ..
    · exact scope.put w _ room typed after

theorem makesStop (yields : Yields m known op type operands ws (.error cause))
    (allowed : stops cause) (q : ∀ id e', Q (.temp id) e' fun _ => False) :
    Makes m stops (b.Scope m known e) (emit op type operands) e Q := by
  refine ⟨[computing op type operands e.nextTemp e.loc], fun _ => False, ?_, ?_, ?_⟩
  · rw [emitRun]
    rfl
  · rw [emitRun]
    exact q _ _
  · intro s after scope rest hosts
    exact .inr ⟨0, s, s.frame.fn.name, _, cause, Nat.zero_lt_one, .here s,
      ⟨_, after, rest, stepYieldsError scope yields⟩, allowed⟩

theorem makesNever (q : ∀ id e', Q (.temp id) e' fun _ => False) :
    Makes m stops (fun _ => False) (emit op type operands) e Q := by
  refine ⟨[computing op type operands e.nextTemp e.loc], fun _ => False, ?_, ?_, ?_⟩
  · rw [emitRun]
    rfl
  · rw [emitRun]
    exact q _ _
  · exact fun s after never => never.elim

theorem neverDefine (q : ∀ e', Q (.temp id) e' fun _ => False) :
    Makes m stops (fun _ => False) (define op type operands id) e Q :=
  ⟨[computing op type operands id e.loc], fun _ => False, rfl, q _, fun _ _ never => never.elim⟩

theorem makesDefine (yields : Yields m known op type operands ws (.ok w))
    (q : ∀ e', Q (.temp b.result) e' (b.Done w)) :
    Makes m stops (b.Scope m known e) (define op type operands b.result) e Q := by
  refine ⟨[computing op type operands b.result e.loc], b.Done w, ?_, ?_, ?_⟩
  · rw [defineRun]
  · rw [defineRun]
    exact q _
  · intro s after scope rest hosts
    obtain ⟨room, typed⟩ := hosts _ List.mem_cons_self ⟨b.result, type⟩ List.mem_cons_self
    refine .inl ⟨_, Machine.reachesOne rest (stepYields scope yields room), rfl, rfl,
      Frame.putSize .., scope.around, ?_, fun id low other => ?_, Frame.putSame room w⟩
    · exact (Frame.putSize ..).trans scope.size
    · exact (Frame.putOther s.frame other w).trans (scope.kept id low other)

end Step
end Emit
end FixedIL
