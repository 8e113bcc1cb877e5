import FixedIL.Proofs.Paths
import Mathlib.Logic.Relation

/-!
Casts between forms of the same number: their results are other names of their operands. Where a
name is used, it and all that it names have been defined in this order. Without that, names are
in order as long as no cast depends on itself.
-/
namespace FixedIL.Lowering

def sameNumberCast : Opcode → Bool
  | .fpext | .fptrunc | .tofixed | .fromfixed => true
  | _ => false

def Casts (f : Function) (u : TempId) (v : Value) : Prop :=
  ∃ b ∈ f.blocks, ∃ i ∈ b.instrs, sameNumberCast i.op = true ∧ i.operands = [v] ∧ i.resultIds = [u]

def IsCast (f : Function) (u : TempId) : Prop := ∃ v, Casts f u v

inductive Same (f : Function) : Value → Value → Prop where
  | here (v : Value) : Same f v v
  | cast {u : TempId} {v w : Value} (casts : Casts f u v) (same : Same f v w) : Same f (.temp u) w

def Ordered (f : Function) (live : TempId → Prop) (rank : TempId → Nat) : Prop :=
  ∀ u v, live u → Casts f u (.temp v) → live v ∧ rank u < rank v

def CastsAcyclic (f : Function) : Prop :=
  ∀ u, ¬ Relation.TransGen (fun u v => Casts f u (.temp v)) u u

open Classical in
noncomputable def namesOf (f : Function) (v : TempId) : List TempId :=
  (f.temps.map Temp.id).filter fun u => Relation.TransGen (fun u v => Casts f u (.temp v)) u v

variable {f : Function} {u k : TempId} {v w x : Value} {live : TempId → Prop} {rank : TempId → Nat}
  {trail : List TempId} {code : List Instr}

theorem castShape {p : Program} {i : Instr} (sound : WellFormed.instr? p f f.temps i = none)
    (cast : sameNumberCast i.op = true) : ∃ v r, i.operands = [v] ∧ i.results = [r] := by
  have shape : i.op.minOperands = 1 ∧ i.op.maxOperands? = some i.op.minOperands ∧
      i.op.results = .one := by
    revert cast
    cases i.op <;> first | exact fun _ => ⟨rfl, rfl, rfl⟩ | exact nofun
  obtain ⟨r, results, -⟩ := WellFormed.oneResult sound shape.2.2
  obtain ⟨v, operands⟩ :=
    List.length_eq_one_iff.mp ((WellFormed.operandCount sound shape.2.1).trans shape.1)
  exact ⟨v, r, operands, results⟩

theorem castResult {p : Program} (sound : f.violation? p = none) {b : Block}
    (block : b ∈ f.blocks) {i : Instr} (instr : i ∈ b.instrs) (cast : sameNumberCast i.op = true)
    (result : u ∈ i.resultIds) : IsCast f u := by
  obtain ⟨v, r, operands, results⟩ := castShape (WellFormed.instrSound sound block instr) cast
  rw [Instr.resultIds, results] at result
  cases List.mem_singleton.mp result
  refine ⟨v, b, block, i, instr, cast, operands, ?_⟩
  rw [Instr.resultIds, results]
  rfl

theorem sameTrans (first : Same f v w) (second : Same f w x) : Same f v x := by
  induction first with
  | here => exact second
  | cast casts same ih => exact .cast casts (ih second)

theorem castsNeeds {v : TempId} (casts : Casts f u (.temp v)) : f.Needs u v := by
  obtain ⟨b, block, i, instr, -, operands, result⟩ := casts
  exact ⟨b, block, i, instr, result, .inl (operands ▸ List.mem_singleton_self _)⟩

theorem castDefined (casts : Casts f u v) : u ∈ f.temps.map Temp.id := by
  obtain ⟨b, block, i, instr, -, -, result⟩ := casts
  have member : u ∈ i.resultIds := result ▸ List.mem_singleton_self u
  obtain ⟨t, among, rfl⟩ := List.mem_map.mp member
  exact List.mem_map_of_mem (Function.memTemps block instr among)

theorem sameDefined {p : Program} (sound : f.violation? p = none) (same : Same f v (.temp k))
    (defined : ∀ id, v = .temp id → ∃ t ∈ f.temps, t.id = id) : ∃ t ∈ f.temps, t.id = k := by
  generalize target : Value.temp k = w at same
  induction same with
  | here w => exact defined k target.symm
  | @cast u v w casts same ih =>
    refine ih (fun id is => ?_) target
    obtain ⟨b, block, i, instr, -, operands, -⟩ := casts
    exact WellFormed.operandDefined sound block instr
      (by rw [operands, is]; exact List.mem_cons_self)

theorem memNamesOf {v : TempId} :
    u ∈ namesOf f v ↔ Relation.TransGen (fun u v => Casts f u (.temp v)) u v := by
  classical
  refine ⟨fun member => of_decide_eq_true (List.mem_filter.mp member).2, fun chain => ?_⟩
  obtain ⟨next, casts, -⟩ := Relation.TransGen.head'_iff.mp chain
  exact List.mem_filter.mpr ⟨castDefined casts, decide_eq_true chain⟩

theorem looplessOrdered (closed : ∀ u v, live u → Casts f u (.temp v) → live v)
    (loopless : ∀ u, live u → ¬ Relation.TransGen (fun u v => Casts f u (.temp v)) u u) :
    Ordered f live fun v => (namesOf f v).length := by
  classical
  intro u v alive casts
  have more : (namesOf f u).Sublist (namesOf f v) :=
    List.monotone_filter_right _ fun w named =>
      decide_eq_true (Relation.TransGen.tail (of_decide_eq_true named) casts)
  refine ⟨closed u v alive casts, Nat.lt_of_le_of_ne more.length_le fun same => ?_⟩
  refine loopless u alive ?_
  rw [← memNamesOf, more.eq_of_length same]
  exact memNamesOf.mpr (.single casts)

theorem acyclicOrdered (acyclic : CastsAcyclic f) :
    Ordered f (fun _ => True) fun v => (namesOf f v).length :=
  looplessOrdered (fun _ _ _ _ => trivial) fun u _ => acyclic u

theorem chainOrdered (ordered : Ordered f live rank) (alive : live u) (casts : Casts f u v)
    (same : Same f v (.temp k)) : live k ∧ rank u < rank k := by
  generalize target : Value.temp k = w at same
  induction same generalizing u with
  | here w =>
    subst target
    exact ordered u k alive casts
  | @cast next v w casts' same ih =>
    obtain ⟨alive', above⟩ := ordered u next alive casts
    obtain ⟨alive'', above'⟩ := ih alive' casts' target
    exact ⟨alive'', Nat.lt_trans above above'⟩

theorem orderedAcyclic (ordered : Ordered f (fun _ => True) rank) : CastsAcyclic f := by
  have climbs {u v : TempId}
      (chain : Relation.TransGen (fun u v => Casts f u (.temp v)) u v) : rank u < rank v := by
    induction chain with
    | single casts => exact (ordered _ _ trivial casts).2
    | tail _ casts ih => exact Nat.lt_trans ih (ordered _ _ trivial casts).2
  exact fun u chain => Nat.lt_irrefl _ (climbs chain)

theorem castsOnce (once : f.DefinesOnce) (first : Casts f u v) (second : Casts f u w) : v = w := by
  obtain ⟨b, block, i, instr, -, operands, result⟩ := first
  obtain ⟨b', block', i', instr', -, operands', result'⟩ := second
  have here : u ∈ i.resultIds := result ▸ List.mem_singleton_self u
  have there : u ∈ i'.resultIds := result' ▸ List.mem_singleton_self u
  obtain rfl := Function.resultOnce once block instr block' instr' here there
  exact List.singleton_inj.mp (operands.symm.trans operands')

def IsEnd (f : Function) (v : Value) : Prop := ∀ id, v = .temp id → ¬ IsCast f id

theorem endOnce (once : f.DefinesOnce) (first : Same f x v) (ends : IsEnd f v)
    (second : Same f x w) (ends' : IsEnd f w) : v = w := by
  induction first with
  | here v =>
    cases second with
    | here => rfl
    | cast casts => exact absurd ⟨_, casts⟩ (ends _ rfl)
  | cast casts same ih =>
    cases second with
    | here => exact absurd ⟨_, casts⟩ (ends' _ rfl)
    | cast casts' same' =>
      obtain rfl := castsOnce once casts casts'
      exact ih ends same'

theorem endingOrdered (once : f.DefinesOnce) :
    Ordered f (fun u => ∃ w, Same f (.temp u) w ∧ IsEnd f w) fun v => (namesOf f v).length := by
  have further {u v : TempId} {w : Value} (same : Same f (.temp u) w) (ends : IsEnd f w)
      (casts : Casts f u (.temp v)) : Same f (.temp v) w := by
    cases same with
    | here => exact absurd ⟨_, casts⟩ (ends u rfl)
    | cast casts' same =>
      obtain rfl := castsOnce once casts casts'
      exact same
  refine looplessOrdered (fun u v ⟨w, same, ends⟩ casts => ⟨w, further same ends casts, ends⟩) ?_
  rintro u ⟨w, same, ends⟩
  generalize start : Value.temp u = x at same
  induction same generalizing u with
  | here =>
    intro loop
    obtain ⟨next, casts, -⟩ := Relation.TransGen.head'_iff.mp loop
    exact ends u start.symm ⟨_, casts⟩
  | @cast u' v w casts same ih =>
    cases start
    intro loop
    obtain ⟨next, casts', back⟩ := Relation.TransGen.head'_iff.mp loop
    obtain rfl := castsOnce once casts casts'
    exact ih next ends rfl (.tail' back casts)

def readsEarlier (f : Function) : Bool :=
  f.blocks.all fun b => b.instrs.all fun i => i.operands.all fun
    | .temp v => !sameNumberCast i.op || i.resultIds.all (v < ·)
    | _ => true

theorem earlierAcyclic (earlier : readsEarlier f = true) : CastsAcyclic f := by
  have ordered : Ordered f (fun _ => True) fun u => UInt32.size - u.toNat := by
    rintro u v - ⟨b, block, i, instr, cast, operands, result⟩
    refine ⟨trivial, ?_⟩
    have here := List.all_eq_true.mp (List.all_eq_true.mp earlier b block) i instr
    have below : v < u := by simpa [operands, cast, result] using here
    have less := UInt32.lt_iff_toNat_lt.mp below
    have size := UInt32.toNat_lt_size u
    change UInt32.size - u.toNat < UInt32.size - v.toNat
    omega
  exact orderedAcyclic ordered

theorem dominatedOrdered (dominated : f.UsesDominated) (once : f.DefinesOnce)
    (path : f.Path trail code) : Ordered f (f.Dominates · code) trail.idxOf :=
  fun _ _ dominates casts =>
    ⟨Function.dominatesNeeds dominated once (castsNeeds casts) dominates,
      Function.needsNewer dominated once (castsNeeds casts) path dominates⟩

end FixedIL.Lowering
