import FixedIL.Proofs.Definitions
import Mathlib.Data.List.Basic
import Mathlib.Data.List.Nodup
import Mathlib.Data.List.Pairwise

/-!
The ways of control through a function. The temporaries defined on a way are listed with the
latest first; what a definition needs has been defined before it, and not again since.
-/
namespace FixedIL

def Instr.resultIds (i : Instr) : List TempId := i.results.map Temp.id

def Block.paramIds (b : Block) : List TempId := b.params.map Temp.id

def Instr.Uses (i : Instr) (id : TempId) : Prop :=
  .temp id ∈ i.operands ∨ ∃ args ∈ i.branchArgs, .temp id ∈ args

namespace Function

inductive Edge (f : Function) : List Instr → List TempId → List Instr → Prop where
  | next {i : Instr} {rest : List Instr} (plain : i.isTerminator = false) :
      Edge f (i :: rest) i.resultIds rest
  | jump {i : Instr} {rest : List Instr} {label : String} {b : Block}
      (branch : i.op = .br ∨ i.op = .cbr) (target : label ∈ i.labels)
      (named : f.blockNamed? label = some b) : Edge f (i :: rest) b.paramIds b.instrs

inductive Walk (f : Function) : List Instr → List TempId → List Instr → Prop where
  | stay (code : List Instr) : Walk f code [] code
  | move {start mid code : List Instr} {trail ids : List TempId} (walk : Walk f start trail mid)
      (edge : Edge f mid ids code) : Walk f start (ids ++ trail) code

inductive Path (f : Function) : List TempId → List Instr → Prop where
  | enter {entry : Block} {rest : List Block} (first : f.blocks = entry :: rest) :
      Path f entry.paramIds entry.instrs
  | move {trail ids : List TempId} {mid code : List Instr} (path : Path f trail mid)
      (edge : Edge f mid ids code) : Path f (ids ++ trail) code

def UsesDominated (f : Function) : Prop :=
  ∀ trail i rest, f.Path trail (i :: rest) → ∀ id, i.Uses id → id ∈ trail

def Dominates (f : Function) (id : TempId) (code : List Instr) : Prop :=
  ∀ trail, f.Path trail code → id ∈ trail

def Needs (f : Function) (u v : TempId) : Prop :=
  ∃ b ∈ f.blocks, ∃ i ∈ b.instrs, i.resultIds = [u] ∧ i.Uses v

inductive Origin (f : Function) : Option Instr → List TempId → List Instr → Prop where
  | params {b : Block} (block : b ∈ f.blocks) : Origin f none b.paramIds b.instrs
  | results {b : Block} {before rest : List Instr} {i : Instr} (block : b ∈ f.blocks)
      (split : b.instrs = before ++ i :: rest) : Origin f (some i) i.resultIds rest

inductive Lands (f : Function) : List TempId → List TempId → List Instr → Prop where
  | enter {entry : Block} {rest : List Block} (first : f.blocks = entry :: rest) :
      Lands f entry.paramIds [] entry.instrs
  | move {trail ids : List TempId} {mid code : List Instr} (path : Path f trail mid)
      (edge : Edge f mid ids code) : Lands f ids trail code

variable {f : Function} {trail late early ids ids' : List TempId} {id u v : TempId}
  {start mid code code' : List Instr} {o o' : Option Instr}

theorem pathWalk (path : f.Path trail mid) (walk : f.Walk mid late code) :
    f.Path (late ++ trail) code := by
  induction walk with
  | stay => exact path
  | move walk edge ih =>
    rw [List.append_assoc]
    exact .move ih edge

theorem landsPath (lands : f.Lands ids early mid) : f.Path (ids ++ early) mid := by
  cases lands with
  | enter first =>
    rw [List.append_nil]
    exact .enter first
  | move path edge => exact .move path edge

theorem blockNamedMem {label : String} {b : Block} (named : f.blockNamed? label = some b) :
    b ∈ f.blocks := List.mem_of_find?_eq_some named

theorem pathWithin (path : f.Path trail code) : ∃ b ∈ f.blocks, code <:+ b.instrs := by
  induction path with
  | @enter entry rest first => exact ⟨entry, first ▸ List.mem_cons_self, List.suffix_rfl⟩
  | move path edge ih =>
    cases edge with
    | next plain =>
      obtain ⟨b, block, inside⟩ := ih
      exact ⟨b, block, (List.suffix_cons ..).trans inside⟩
    | jump branch target named => exact ⟨_, blockNamedMem named, List.suffix_rfl⟩

theorem landsOrigin (lands : f.Lands ids early mid) : ∃ o, f.Origin o ids mid := by
  cases lands with
  | @enter entry rest first => exact ⟨none, .params (first ▸ List.mem_cons_self)⟩
  | move path edge =>
    cases edge with
    | next plain =>
      obtain ⟨b, block, before, split⟩ := pathWithin path
      exact ⟨_, .results block split.symm⟩
    | jump branch target named => exact ⟨none, .params (blockNamedMem named)⟩

theorem splitOnce {α β : Type} {g : α → List β} {x : β} {before before' after after' : List α}
    {a a' : α} (once : ((before ++ a :: after).flatMap g).Nodup) (here : x ∈ g a) (there : x ∈ g a')
    (same : before ++ a :: after = before' ++ a' :: after') : a = a' ∧ after = after' := by
  induction before generalizing before' with
  | nil =>
    cases before' with
    | nil => exact ⟨(List.cons.inj same).1, (List.cons.inj same).2⟩
    | cons b rest =>
      obtain ⟨rfl, rfl⟩ := List.cons.inj same
      rw [List.nil_append, List.flatMap_cons] at once
      have again : x ∈ (rest ++ a' :: after').flatMap g :=
        List.mem_flatMap.mpr ⟨a', List.mem_append_right _ List.mem_cons_self, there⟩
      exact absurd rfl ((List.nodup_append.mp once).2.2 x here x again)
  | cons b rest ih =>
    cases before' with
    | nil =>
      obtain ⟨rfl, rfl⟩ := List.cons.inj same
      rw [List.cons_append, List.flatMap_cons] at once
      have again : x ∈ (rest ++ a :: after).flatMap g :=
        List.mem_flatMap.mpr ⟨a, List.mem_append_right _ List.mem_cons_self, here⟩
      exact absurd rfl ((List.nodup_append.mp once).2.2 x there x again)
    | cons b' rest' =>
      rw [List.cons_append, List.flatMap_cons] at once
      obtain ⟨-, same⟩ := List.cons.inj same
      exact ih (List.nodup_append.mp once).2.1 same

def blockIds (b : Block) : List TempId := b.paramIds ++ b.instrs.flatMap Instr.resultIds

theorem onceBlocks (once : f.DefinesOnce) : (f.blocks.flatMap blockIds).Nodup := by
  have same : f.temps.map Temp.id = f.blocks.flatMap blockIds := by
    simp only [temps, Block.temps, List.map_flatMap, List.map_append]
    rfl
  rwa [DefinesOnce, same] at once

theorem blockOnce (once : f.DefinesOnce) {b b' : Block} (block : b ∈ f.blocks)
    (block' : b' ∈ f.blocks) (here : id ∈ blockIds b) (there : id ∈ blockIds b') : b = b' := by
  by_contra other
  obtain ⟨-, apart⟩ := List.nodup_flatMap.mp (onceBlocks once)
  have symmetric : Std.Symm (Function.onFun List.Disjoint blockIds) := ⟨fun _ _ h _ there here => h here there⟩
  have disjoint : List.Disjoint (blockIds b) (blockIds b') := apart.forall block block' other
  exact disjoint here there

theorem originBlock (origin : f.Origin o ids code) (member : id ∈ ids) :
    ∃ b ∈ f.blocks, id ∈ blockIds b ∧
      ((o = none ∧ ids = b.paramIds ∧ code = b.instrs) ∨
        ∃ i before, o = some i ∧ ids = i.resultIds ∧ b.instrs = before ++ i :: code) := by
  cases origin with
  | @params b block => exact ⟨b, block, List.mem_append_left _ member, .inl ⟨rfl, rfl, rfl⟩⟩
  | @results b before rest i block split =>
    refine ⟨b, block, List.mem_append_right _ (List.mem_flatMap.mpr ⟨i, ?_, member⟩),
      .inr ⟨i, before, rfl, rfl, split⟩⟩
    rw [split]
    exact List.mem_append_right _ List.mem_cons_self

theorem originOnce (once : f.DefinesOnce) (origin : f.Origin o ids code)
    (origin' : f.Origin o' ids' code') (member : id ∈ ids) (member' : id ∈ ids') :
    o = o' ∧ ids = ids' ∧ code = code' := by
  obtain ⟨b, block, here, place⟩ := originBlock origin member
  obtain ⟨b', block', there, place'⟩ := originBlock origin' member'
  obtain rfl := blockOnce once block block' here there
  have own : (blockIds b).Nodup := (List.nodup_flatMap.mp (onceBlocks once)).1 b block
  obtain ⟨-, results, apart⟩ := List.nodup_append.mp own
  have mixed {i : Instr} {before rest : List Instr} (split : b.instrs = before ++ i :: rest)
      (param : id ∈ b.paramIds) (result : id ∈ i.resultIds) : False := by
    refine apart id param id (List.mem_flatMap.mpr ⟨i, ?_, result⟩) rfl
    rw [split]
    exact List.mem_append_right _ List.mem_cons_self
  rcases place with ⟨rfl, rfl, rfl⟩ | ⟨i, before, rfl, rfl, split⟩
  · rcases place' with ⟨rfl, rfl, rfl⟩ | ⟨i', before', rfl, rfl, split'⟩
    · exact ⟨rfl, rfl, rfl⟩
    · exact (mixed split' member member').elim
  · rcases place' with ⟨rfl, rfl, rfl⟩ | ⟨i', before', rfl, rfl, split'⟩
    · exact (mixed split member' member).elim
    · rw [split] at results
      obtain ⟨rfl, rfl⟩ := splitOnce results member member' (split.symm.trans split')
      exact ⟨rfl, rfl, rfl⟩

theorem resultOnce (once : f.DefinesOnce) {b b' : Block} {i i' : Instr} (block : b ∈ f.blocks)
    (instr : i ∈ b.instrs) (block' : b' ∈ f.blocks) (instr' : i' ∈ b'.instrs)
    (result : id ∈ i.resultIds) (result' : id ∈ i'.resultIds) : i = i' := by
  obtain ⟨before, rest, split⟩ := List.append_of_mem instr
  obtain ⟨before', rest', split'⟩ := List.append_of_mem instr'
  have origin : f.Origin (some i) i.resultIds rest := .results block split
  have origin' : f.Origin (some i') i'.resultIds rest' := .results block' split'
  exact Option.some.inj (originOnce once origin origin' result result').1

theorem paramNoResult (once : f.DefinesOnce) {b b' : Block} {i : Instr} (block : b ∈ f.blocks)
    (param : id ∈ b.paramIds) (block' : b' ∈ f.blocks) (instr : i ∈ b'.instrs) :
    id ∉ i.resultIds := by
  intro result
  obtain ⟨before, rest, split⟩ := List.append_of_mem instr
  have origin : f.Origin none b.paramIds b.instrs := .params block
  have origin' : f.Origin (some i) i.resultIds rest := .results block' split
  cases (originOnce once origin origin' param result).1

theorem pathLast (path : f.Path trail code) (member : id ∈ trail) :
    ∃ late ids early mid, trail = late ++ (ids ++ early) ∧ id ∉ late ∧ id ∈ ids ∧
      f.Lands ids early mid ∧ f.Walk mid late code := by
  induction path with
  | enter first =>
    exact ⟨[], _, [], _, (List.append_nil _).symm, List.not_mem_nil, member, .enter first, .stay _⟩
  | @move trail ids mid code path edge ih =>
    by_cases now : id ∈ ids
    · exact ⟨[], ids, trail, code, rfl, List.not_mem_nil, now, .move path edge, .stay _⟩
    · obtain ⟨late, group, early, place, split, new, defined, lands, walk⟩ :=
        ih ((List.mem_append.mp member).resolve_left now)
      refine ⟨ids ++ late, group, early, place, ?_, ?_, defined, lands, .move walk edge⟩
      · rw [split, List.append_assoc]
      · exact fun again => (List.mem_append.mp again).elim now new

theorem pathFirst (path : f.Path trail code) (member : id ∈ trail) :
    ∃ late ids early mid, trail = late ++ (ids ++ early) ∧ id ∉ early ∧ id ∈ ids ∧
      f.Lands ids early mid := by
  induction path with
  | enter first =>
    exact ⟨[], _, [], _, (List.append_nil _).symm, List.not_mem_nil, member, .enter first⟩
  | @move trail ids mid code path edge ih =>
    by_cases old : id ∈ trail
    · obtain ⟨late, group, early, place, split, new, defined, lands⟩ := ih old
      exact ⟨ids ++ late, group, early, place, by rw [split, List.append_assoc], new, defined, lands⟩
    · exact ⟨[], ids, trail, code, rfl, old, (List.mem_append.mp member).resolve_right old,
        .move path edge⟩

theorem needsEarly (dominated : f.UsesDominated) (once : f.DefinesOnce) (needs : f.Needs u v)
    (lands : f.Lands ids early mid) (member : u ∈ ids) : ids = [u] ∧ v ∈ early := by
  obtain ⟨b, block, i, instr, result, uses⟩ := needs
  obtain ⟨before, rest, split⟩ := List.append_of_mem instr
  have origin : f.Origin (some i) i.resultIds rest := .results block split
  have isResult : u ∈ i.resultIds := result ▸ List.mem_singleton_self u
  cases lands with
  | @enter entry blocks first =>
    have param : f.Origin none entry.paramIds entry.instrs := .params (first ▸ List.mem_cons_self)
    cases (originOnce once param origin member isResult).1
  | move path edge =>
    cases edge with
    | @next j _ plain =>
      obtain ⟨b', block', before', split'⟩ := pathWithin path
      have own : f.Origin (some j) j.resultIds mid := .results block' split'.symm
      obtain ⟨same, -, -⟩ := originOnce once own origin member isResult
      cases same
      exact ⟨result, dominated _ i _ path v uses⟩
    | @jump j rest' label target branch among named =>
      have param : f.Origin none target.paramIds target.instrs := .params (blockNamedMem named)
      cases (originOnce once param origin member isResult).1

theorem trailNeeds (dominated : f.UsesDominated) (once : f.DefinesOnce) (needs : f.Needs u v)
    (path : f.Path trail code) (member : u ∈ trail) : v ∈ trail := by
  obtain ⟨late, ids, early, mid, rfl, -, defined, lands⟩ := pathFirst path member
  obtain ⟨-, old⟩ := needsEarly dominated once needs lands defined
  exact List.mem_append_right _ (List.mem_append_right _ old)

theorem dominatesNeeds (dominated : f.UsesDominated) (once : f.DefinesOnce) (needs : f.Needs u v)
    (dominates : f.Dominates u code) : f.Dominates v code :=
  fun trail path => trailNeeds dominated once needs path (dominates trail path)

theorem needsNewer (dominated : f.UsesDominated) (once : f.DefinesOnce) (needs : f.Needs u v)
    (path : f.Path trail code) (dominates : f.Dominates u code) :
    trail.idxOf u < trail.idxOf v := by
  by_contra older
  /- Otherwise the way to the first definition of `v`, continued behind its last one, comes to
  the same place without `u`. -/
  have other : u ≠ v := by
    rintro rfl
    obtain ⟨late, ids, early, mid, -, new, defined, lands⟩ := pathFirst path (dominates _ path)
    exact new (needsEarly dominated once needs lands defined).2
  have defined := trailNeeds dominated once needs path (dominates _ path)
  obtain ⟨late, ids, early, mid, split, unseen, last, lands, walk⟩ := pathLast path defined
  obtain ⟨-, ids', early', mid', -, new, first, lands'⟩ := pathFirst path defined
  obtain ⟨o, origin⟩ := landsOrigin lands
  obtain ⟨o', origin'⟩ := landsOrigin lands'
  obtain ⟨-, rfl, rfl⟩ := originOnce once origin origin' last first
  have around : u ∈ late ++ (ids ++ early') :=
    dominates _ (pathWalk (landsPath lands') walk)
  have skipsLate : u ∉ late := by
    intro seen
    refine older ?_
    rw [split, List.idxOf_append_of_mem seen, List.idxOf_append_of_notMem unseen]
    exact Nat.lt_of_lt_of_le (List.idxOf_lt_length_of_mem seen) (Nat.le_add_right ..)
  have skipsIds : u ∉ ids := by
    intro together
    obtain ⟨alone, -⟩ := needsEarly dominated once needs lands together
    rw [alone] at last
    exact other (List.mem_singleton.mp last).symm
  have skipsEarly : u ∉ early' := by
    intro seen
    cases lands' with
    | enter first => cases seen
    | move path' edge => exact new (trailNeeds dominated once needs path' seen)
  rcases List.mem_append.mp around with seen | seen
  · exact skipsLate seen
  · exact (List.mem_append.mp seen).elim skipsIds skipsEarly

def readsDefined : List TempId → List Instr → Bool
  | _, [] => true
  | known, i :: rest =>
    (i.op ≠ .br ∧ i.op ≠ .cbr ∧ ∀ v ∈ i.operands ++ i.branchArgs.flatten,
      v.isTemp = true → v ∈ known.map Value.temp) &&
    readsDefined (i.resultIds ++ known) rest

theorem straightDominated {b : Block} (one : f.blocks = [b])
    (reads : readsDefined b.paramIds b.instrs = true) : f.UsesDominated := by
  have along {trail : List TempId} {code : List Instr} (path : f.Path trail code) :
      readsDefined trail code = true := by
    induction path with
    | enter first =>
      obtain ⟨rfl, -⟩ := List.cons.inj (one.symm.trans first)
      exact reads
    | move path edge ih =>
      cases edge with
      | next => exact (Bool.and_eq_true_iff.mp ih).2
      | jump branch =>
        obtain ⟨other, other', -⟩ := of_decide_eq_true (Bool.and_eq_true_iff.mp ih).1
        exact absurd branch (not_or.mpr ⟨other, other'⟩)
  intro trail i rest path id uses
  obtain ⟨-, -, known⟩ := of_decide_eq_true (Bool.and_eq_true_iff.mp (along path)).1
  have member : Value.temp id ∈ i.operands ++ i.branchArgs.flatten := by
    rcases uses with operand | ⟨args, list, argument⟩
    · exact List.mem_append_left _ operand
    · exact List.mem_append_right _ (List.mem_flatten.mpr ⟨args, list, argument⟩)
  obtain ⟨k, among, same⟩ := List.mem_map.mp (known _ member rfl)
  cases same
  exact among

end Function
end FixedIL
