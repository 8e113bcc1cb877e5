import FixedIL.Proofs.LoweredCode
import Mathlib.Data.List.Perm.Subperm

/-!
What temporaries become in the course of a function. Every entry is a name of what its temporary
is a cast of, and following the entries from a live name ends at something that is no cast.
-/
namespace FixedIL.Lowering

open PassM

section Names

def Extends (s s' : PassState) : Prop :=
  ∀ id v, s.values.lookup id = some v → s'.values.lookup id = some v

structure Named (n : Nat) (s : PassState) : Prop where
  keys : ∀ id v, s.values.lookup id = some v → id.toNat < n
  temps : ∀ id k, s.values.lookup id = some (.temp k) → k.toNat < n

structure Below (n : Nat) (i : Instr) : Prop where
  results : ∀ t ∈ i.results, t.id.toNat < n
  operands : ∀ id, .temp id ∈ i.operands → id.toNat < n

variable {c : Config} {site : Site} {σ : Value → Value} {i : Instr} {n : Nat}
  {s s' : PassState} {names values : List (TempId × Value)}

theorem nameAllKeeps {id : TempId} {v : Value} (old : values.lookup id = some v) :
    (nameAll names values).lookup id = some v := by
  induction names generalizing values with
  | nil => exact old
  | cons entry rest ih =>
    refine ih ?_
    rw [lookupInsertNew]
    split
    · rename_i same
      rw [← eq_of_beq same, old]
      rfl
    · exact old

theorem nameAllFinds {id : TempId} {v : Value} (found : (nameAll names values).lookup id = some v) :
    values.lookup id = some v ∨ (id, v) ∈ names := by
  induction names generalizing values with
  | nil => exact .inl found
  | cons entry rest ih =>
    rcases ih found with old | new
    · rw [lookupInsertNew] at old
      split at old
      · rename_i same
        cases before : values.lookup entry.1 with
        | none =>
          rw [before] at old
          cases old
          rw [eq_of_beq same]
          exact .inr List.mem_cons_self
        | some w =>
          rw [before] at old
          cases old
          rw [eq_of_beq same]
          exact .inl before
      · exact .inl old
    · exact .inr (List.mem_cons_of_mem _ new)

theorem nameAllHas {entry : TempId × Value} (member : entry ∈ names) :
    ∃ v, (nameAll names values).lookup entry.1 = some v := by
  induction names generalizing values with
  | nil => cases member
  | cons first rest ih =>
    rcases List.mem_cons.mp member with rfl | member
    · have first : (insertNew entry.1 entry.2 values).lookup entry.1 =
          some ((values.lookup entry.1).getD entry.2) := by
        rw [lookupInsertNew, if_pos (beq_self_eq_true _)]
      have kept : (nameAll rest (insertNew entry.1 entry.2 values)).lookup entry.1 =
          some ((values.lookup entry.1).getD entry.2) := nameAllKeeps first
      exact ⟨_, kept⟩
    · exact ih member

theorem unseenFresh {seen ids : List TempId} (unseen : Pass.repeatedResult? s seen ids = none)
    {id : TempId} (member : id ∈ ids) : s.values.lookup id = none := by
  induction ids generalizing seen with
  | nil => cases member
  | cons first rest ih =>
    rw [Pass.repeatedResult?] at unseen
    split at unseen
    · cases unseen
    · rename_i new
      rcases List.mem_cons.mp member with rfl | member
      · simp only [PassState.isMapped, Bool.or_eq_true, not_or, Bool.not_eq_true] at new
        exact Option.isSome_eq_false_iff.mp new.1 |> Option.isNone_iff_eq_none.mp
      · exact ih unseen member

theorem unseenOnce {seen ids : List TempId} (unseen : Pass.repeatedResult? s seen ids = none) :
    ids.Nodup ∧ ∀ id ∈ ids, id ∉ seen := by
  induction ids generalizing seen with
  | nil => exact ⟨List.nodup_nil, nofun⟩
  | cons first rest ih =>
    rw [Pass.repeatedResult?] at unseen
    split at unseen
    · cases unseen
    · rename_i new
      obtain ⟨once, others⟩ := ih unseen
      simp only [Bool.or_eq_true, not_or, Bool.not_eq_true, List.contains_eq_mem,
        decide_eq_false_iff_not] at new
      refine ⟨List.nodup_cons.mpr ⟨fun again => ?_, once⟩, fun id member => ?_⟩
      · exact others first again List.mem_cons_self
      · rcases List.mem_cons.mp member with rfl | member
        · exact new.2
        · exact fun old => others id member (List.mem_cons_of_mem _ old)

structure Enters (ids : List TempId) (s s' : PassState) : Prop where
  once : ids.Nodup
  unseen : ∀ id ∈ ids, s.values.lookup id = none
  grows : Extends s s'
  entered : ∀ id ∈ ids, ∃ v, s'.values.lookup id = some v

theorem entersNone (same : s'.values = s.values) : Enters [] s s' :=
  ⟨List.nodup_nil, nofun, fun _ _ old => same ▸ old, nofun⟩

theorem Enters.carry {ids : List TempId} {t t' : PassState} (enters : Enters ids s s')
    (before : t.values = s.values) (after : t'.values = s'.values) : Enters ids t t' :=
  ⟨enters.once, before ▸ enters.unseen, fun id v old => after ▸ enters.grows id v (before ▸ old),
    after ▸ enters.entered⟩

theorem Enters.append {ids ids' : List TempId} {mid : PassState} (first : Enters ids s mid)
    (second : Enters ids' mid s') : Enters (ids ++ ids') s s' := by
  refine ⟨List.nodup_append.mpr ⟨first.once, second.once, ?_⟩, fun id member => ?_,
    fun id v old => second.grows id v (first.grows id v old), fun id member => ?_⟩
  · rintro id early _ late rfl
    obtain ⟨v, found⟩ := first.entered id early
    rw [second.unseen id late] at found
    cases found
  · rcases List.mem_append.mp member with early | late
    · exact first.unseen id early
    · cases old : s.values.lookup id with
      | none => rfl
      | some v =>
        have found := first.grows id v old
        rw [second.unseen id late] at found
        cases found
  · rcases List.mem_append.mp member with early | late
    · obtain ⟨v, found⟩ := first.entered id early
      exact ⟨v, second.grows id v found⟩
    · exact second.entered id late

theorem entersOne {id : TempId} {v : Value} (unseen : s.values.lookup id = none) :
    Enters [id] s (s.mapValue id v) := by
  have kept (other : TempId) (w : Value) (old : s.values.lookup other = some w) :
      (nameAll [(id, v)] s.values).lookup other = some w := nameAllKeeps old
  refine ⟨List.nodup_singleton id, fun other member => ?_, kept, fun other member => ?_⟩
  · rwa [List.mem_singleton.mp member]
  · rw [List.mem_singleton.mp member]
    exact ⟨v, by simp [PassState.mapValue, lookupInsertNew, unseen]⟩

theorem loweredNames {x : Emit Unit} (lowered : Lowered c site σ i x names) :
    names = keptNames i ∨ (definedResults i = [] ∧ ∃ t u, i.results = [t] ∧ i.operands = [u] ∧
      names = [(t.id, σ u)]) := by
  cases lowered with
  | one | sequence | call => exact .inl rfl
  | same cast operands results =>
    exact .inr ⟨by simp [definedResults, cast], _, _, results, operands, rfl⟩

theorem namesAll {x : Emit Unit} (lowered : Lowered c site σ i x names) {t : Temp}
    (result : t ∈ i.results) : ∃ v, (t.id, v) ∈ names := by
  rcases loweredNames lowered with rfl | ⟨-, u, v, results, -, rfl⟩
  · exact ⟨.temp t.id, List.mem_map.mpr ⟨t, result, rfl⟩⟩
  · rw [results] at result
    cases List.mem_singleton.mp result
    exact ⟨σ v, List.mem_singleton_self _⟩

theorem entersResults {x : Emit Unit}
    (unseen : Pass.repeatedResult? s [] (i.results.map Temp.id) = none)
    (lowered : Lowered c site σ i x names) (values : s'.values = nameAll names s.values) :
    Enters (i.results.map Temp.id) s s' := by
  refine ⟨(unseenOnce unseen).1, fun id member => unseenFresh unseen member, fun id v old => ?_,
    fun id member => ?_⟩
  · rw [values]
    exact nameAllKeeps old
  · obtain ⟨t, result, rfl⟩ := List.mem_map.mp member
    obtain ⟨v, entry⟩ := namesAll lowered result
    rw [values]
    exact nameAllHas entry

theorem memKeptNames {id : TempId} {v : Value} (member : (id, v) ∈ keptNames i) :
    ∃ t ∈ i.results, t.id = id ∧ v = .temp id := by
  obtain ⟨t, result, same⟩ := List.mem_map.mp member
  cases same
  exact ⟨t, result, rfl, rfl⟩

theorem definedKept {x : Emit Unit} (unseen : Pass.repeatedResult? s [] (i.results.map Temp.id) = none)
    (lowered : Lowered c site σ i x names) {id : TempId} (member : id ∈ definedResults i) :
    (nameAll names s.values).lookup id = some (.temp id) := by
  rcases loweredNames lowered with rfl | ⟨none, -⟩
  · have result : id ∈ i.results.map Temp.id := by
      unfold definedResults at member
      split at member
      · cases member
      · exact member
    obtain ⟨t, ht, rfl⟩ := List.mem_map.mp result
    have entry : (t.id, Value.temp t.id) ∈ keptNames i := List.mem_map.mpr ⟨t, ht, rfl⟩
    obtain ⟨v, found⟩ : ∃ v, (nameAll (keptNames i) s.values).lookup t.id = some v := nameAllHas entry
    rcases nameAllFinds found with old | new
    · rw [unseenFresh unseen result] at old
      cases old
    · obtain ⟨-, -, -, rfl⟩ := memKeptNames new
      exact found
  · rw [none] at member
    cases member

theorem operandBelow (literal : ∀ x, (site.encoding.mapLiteral x).isTemp = false)
    (named : Named n s) (below : Below n i) {v : Value} (member : v ∈ i.operands) {k : TempId}
    (became : s.operand site.encoding v = .temp k) : k.toNat < n := by
  cases v with
  | temp id =>
    simp only [PassState.operand] at became
    cases found : s.values.lookup id with
    | none =>
      rw [found] at became
      cases became
      exact below.operands _ member
    | some w =>
      rw [found] at became
      cases became
      exact named.temps id k found
  | float x =>
    have plain := literal x
    rw [PassState.operand] at became
    rw [became] at plain
    cases plain
  | int | bool | null => cases became

theorem namedStep {x : Emit Unit} (literal : ∀ x, (site.encoding.mapLiteral x).isTemp = false)
    (named : Named n s) (below : Below n i)
    (lowered : Lowered c site (s.operand site.encoding) i x names)
    (values : s'.values = nameAll names s.values) : Named n s' := by
  have new (id : TempId) (v : Value) (member : (id, v) ∈ names) :
      id.toNat < n ∧ ∀ k, v = .temp k → k.toNat < n := by
    rcases loweredNames lowered with rfl | ⟨-, t, u, results, operands, rfl⟩
    · obtain ⟨t, result, rfl, rfl⟩ := memKeptNames member
      refine ⟨below.results t result, fun k same => ?_⟩
      cases same
      exact below.results t result
    · cases List.mem_singleton.mp member
      refine ⟨below.results t (by rw [results]; exact List.mem_singleton_self t), fun k same => ?_⟩
      exact operandBelow literal named below (by rw [operands]; exact List.mem_singleton_self u) same
  constructor
  · intro id v found
    rw [values] at found
    exact (nameAllFinds found).elim (named.keys id v) fun member => (new id v member).1
  · intro id k found
    rw [values] at found
    exact (nameAllFinds found).elim (named.temps id k) fun member => (new id _ member).2 k rfl

theorem resultNoCast {f : Function} (once : f.DefinesOnce) {b : Block} (block : b ∈ f.blocks)
    (instr : i ∈ b.instrs) {t : Temp} (result : t ∈ i.results)
    (other : sameNumberCast i.op = false) : ¬ IsCast f t.id := by
  rintro ⟨v, b', block', i', instr', cast, -, alone⟩
  obtain rfl := Function.resultOnce once block instr block' instr' (List.mem_map_of_mem result)
    (alone ▸ List.mem_singleton_self t.id)
  rw [other] at cast
  cases cast

theorem paramNoCast {f : Function} (once : f.DefinesOnce) {b : Block} (block : b ∈ f.blocks)
    {t : Temp} (param : t ∈ b.params) : ¬ IsCast f t.id := by
  rintro ⟨v, b', block', i', instr', -, -, alone⟩
  exact Function.paramNoResult once block (List.mem_map_of_mem param) block' instr'
    (alone ▸ List.mem_singleton_self t.id)

def encoded (t : Encoding) : Value → Value
  | .float x => t.mapLiteral x
  | v => v

def Becomes (site : Site) (v w : Value) : Prop :=
  ∃ u, Same site.function v u ∧ w = encoded site.encoding u

def Entered (site : Site) (s : PassState) : Prop :=
  ∀ id w, s.values.lookup id = some w →
    (w = .temp id ∧ ¬ IsCast site.function id) ∨
      ∃ v, Casts site.function id v ∧ Becomes site v w

theorem operandBecomes (entered : Entered site s) (v : Value) :
    Becomes site v (s.operand site.encoding v) := by
  cases v with
  | temp id =>
    cases found : s.values.lookup id with
    | none => exact ⟨.temp id, .here _, by simp [PassState.operand, found, encoded]⟩
    | some w =>
      rw [PassState.operand, found]
      rcases entered id w found with ⟨rfl, -⟩ | ⟨v, casts, u, same, rfl⟩
      · exact ⟨.temp id, .here _, rfl⟩
      · exact ⟨u, .cast casts same, rfl⟩
  | _ => exact ⟨_, .here _, rfl⟩

theorem enteredStep {x : Emit Unit} (once : site.function.DefinesOnce) {b : Block}
    (block : b ∈ site.function.blocks) (instr : i ∈ b.instrs) (entered : Entered site s)
    (lowered : Lowered c site (s.operand site.encoding) i x names)
    (values : s'.values = nameAll names s.values) : Entered site s' := by
  intro id w found
  rw [values] at found
  refine (nameAllFinds found).elim (entered id w) fun member => ?_
  have kept (names' : names = keptNames i) (other : sameNumberCast i.op = false) :
      w = .temp id ∧ ¬ IsCast site.function id := by
    obtain ⟨t, result, rfl, rfl⟩ := memKeptNames (names' ▸ member)
    exact ⟨rfl, resultNoCast once block instr result other⟩
  cases lowered with
  | one rewritten => exact .inl (kept rfl (rewrittenNoCast rewritten))
  | sequence results sequenced => exact .inl (kept rfl (sequencedNoCast sequenced))
  | same cast operands results =>
    cases List.mem_singleton.mp member
    refine .inr ⟨_, ⟨b, block, i, instr, cast, operands, ?_⟩, operandBecomes entered _⟩
    rw [Instr.resultIds, results]
    rfl
  | call op => exact .inl (kept rfl (by rw [op]; rfl))

end Names

structure Follows (n : Nat) (ρ : Value → Value) : Prop where
  literals : ∀ v, v.isTemp = false → ρ v = v
  below : ∀ id k, id.toNat < n → ρ (.temp id) = .temp k → k.toNat < n
  fresh : ∀ id, n ≤ id.toNat → ρ (.temp id) = .temp id

section Resolution

variable {site : Site} {n : Nat} {s : PassState} {live : TempId → Prop} {rank : TempId → Nat}

theorem resolveFixed {t : Encoding} {id : TempId} (hops : Nat)
    (same : s.operand t (.temp id) = .temp id) :
    Pass.resolve s t hops (.temp id) = .temp id := by
  cases hops with
  | zero => rfl
  | succ hops =>
    have agrees : (Value.temp id).agrees (.temp id) = true := decide_eq_true rfl
    simp [Pass.resolve, same, agrees]

theorem resolveLiteral {t : Encoding} (hops : Nat) {v : Value} (plain : v.isTemp = false) :
    Pass.resolve s t hops v = v := by
  cases hops with
  | zero => rfl
  | succ hops => simp [Pass.resolve, plain]

theorem resolveFollows (named : Named n s) (hops : Nat) :
    Follows n (Pass.resolve s site.encoding hops) := by
  refine ⟨fun v => resolveLiteral hops, ?_, ?_⟩
  · intro id k inside became
    induction hops generalizing id with
    | zero =>
      cases became
      exact inside
    | succ hops ih =>
      simp only [Pass.resolve, Value.isTemp, if_true] at became
      split at became
      · cases became
        exact inside
      · cases found : s.values.lookup id with
        | none =>
          simp only [PassState.operand, found, Option.getD_none] at became
          exact ih id inside became
        | some v =>
          simp only [PassState.operand, found, Option.getD_some] at became
          cases v with
          | temp next => exact ih next (named.temps id next found) became
          | _ =>
            rw [resolveLiteral hops rfl] at became
            cases became
  · intro id fresh
    refine resolveFixed hops ?_
    cases found : s.values.lookup id with
    | none => simp [PassState.operand, found]
    | some v => exact absurd (named.keys id v found) (Nat.not_lt.mpr fresh)

theorem encodedTemp (literal : ∀ x, (site.encoding.mapLiteral x).isTemp = false) {v : Value}
    {k : TempId} (same : encoded site.encoding v = .temp k) : v = .temp k := by
  cases v with
  | float x =>
    have plain := literal x
    rw [encoded] at same
    rw [same] at plain
    cases plain
  | _ => exact same

theorem becomesTrans (literal : ∀ x, (site.encoding.mapLiteral x).isTemp = false) {v w : Value}
    {k : TempId} (first : Becomes site v (.temp k)) (second : Becomes site (.temp k) w) :
    Becomes site v w := by
  obtain ⟨u, same, is⟩ := first
  obtain ⟨u', same', rfl⟩ := second
  obtain rfl := encodedTemp literal is.symm
  exact ⟨u', sameTrans same same', rfl⟩

theorem resolveBecomes (literal : ∀ x, (site.encoding.mapLiteral x).isTemp = false)
    (entered : Entered site s) (hops : Nat) {v w : Value} (becomes : Becomes site v w) :
    Becomes site v (Pass.resolve s site.encoding hops w) := by
  induction hops generalizing w with
  | zero => exact becomes
  | succ hops ih =>
    cases w with
    | temp k =>
      simp only [Pass.resolve, Value.isTemp, if_true]
      split
      · exact becomes
      · exact ih (becomesTrans literal becomes (operandBecomes entered _))
    | _ =>
      rw [resolveLiteral _ rfl]
      exact becomes

theorem distinctBelow {seen : List TempId} (once : seen.Nodup) (below : ∀ u ∈ seen, u.toNat < n) :
    seen.length ≤ n := by
  have among : (seen.map UInt32.toNat) ⊆ List.range n := by
    intro k member
    obtain ⟨u, inside, rfl⟩ := List.mem_map.mp member
    exact List.mem_range.mpr (below u inside)
  have different : (seen.map UInt32.toNat).Nodup :=
    once.map fun _ _ same => UInt32.toNat_inj.mp same
  simpa using (List.subperm_of_subset different among).length_le

structure Complete (site : Site) (n : Nat) (s : PassState) : Prop where
  named : Named n s
  entered : Entered site s
  whole : ∀ id, IsCast site.function id → ∃ w, s.values.lookup id = some w

theorem resolveEnds (literal : ∀ x, (site.encoding.mapLiteral x).isTemp = false)
    (complete : Complete site n s) (ordered : Ordered site.function live rank) {hops : Nat}
    {k k' : TempId} (alive : live k)
    {seen : List TempId} (once : seen.Nodup) (below : ∀ u ∈ seen, u.toNat < n ∧ rank u < rank k)
    (enough : n ≤ seen.length + hops)
    (became : Pass.resolve s site.encoding hops (.temp k) = .temp k') :
    ¬ IsCast site.function k' := by
  /- The names passed on the way are distinct and lie below `n`, so that not all hops are used. -/
  induction hops generalizing k seen with
  | zero =>
    have new : k ∉ seen := fun again => Nat.lt_irrefl _ (below k again).2
    have same : k = k' := Value.temp.inj became
    rw [← same]
    intro cast
    obtain ⟨w, found⟩ := complete.whole k cast
    have more : (k :: seen).length ≤ n := by
      refine distinctBelow (List.nodup_cons.mpr ⟨new, once⟩) fun u member => ?_
      rcases List.mem_cons.mp member with rfl | old
      · exact complete.named.keys u w found
      · exact (below u old).1
    simp only [List.length_cons] at more
    omega
  | succ hops ih =>
    have stays (same : s.operand site.encoding (.temp k) = .temp k) : k' = k := by
      rw [resolveFixed _ same] at became
      cases became
      rfl
    cases found : s.values.lookup k with
    | none =>
      rw [stays (by simp [PassState.operand, found])]
      intro cast
      obtain ⟨w, known⟩ := complete.whole k cast
      rw [found] at known
      cases known
    | some w =>
      have next : s.operand site.encoding (.temp k) = w := by simp [PassState.operand, found]
      rcases complete.entered k w found with ⟨rfl, other⟩ | ⟨v, casts, u, same, is⟩
      · rw [stays next]
        exact other
      · cases w with
        | temp next' =>
          obtain rfl := encodedTemp literal is.symm
          obtain ⟨alive', above⟩ := chainOrdered ordered alive casts same
          have moves : (Value.temp next').agrees (.temp k) = false := by
            refine decide_eq_false fun back => ?_
            cases back
            exact Nat.lt_irrefl _ above
          simp only [Pass.resolve, Value.isTemp, if_true, next, moves] at became
          have new : k ∉ seen := fun again => Nat.lt_irrefl _ (below k again).2
          refine ih alive' (List.nodup_cons.mpr ⟨new, once⟩) (fun u member => ?_)
            (by simp only [List.length_cons]; omega) became
          rcases List.mem_cons.mp member with rfl | old
          · exact ⟨complete.named.keys u _ found, above⟩
          · exact ⟨(below u old).1, Nat.lt_trans (below u old).2 above⟩
        | _ =>
          simp only [Pass.resolve, Value.isTemp, if_true, next] at became
          split at became
          · rename_i back
            cases back
          · rw [resolveLiteral _ rfl] at became
            cases became

/-- What stands for values in the end: what they are names of, and no cast where the names are
in order. -/
structure Settles (site : Site) (σ : Value → Value) : Prop where
  becomes : ∀ v, Becomes site v (σ v)
  ends : ∀ live rank, Ordered site.function live rank → ∀ v k, (∀ id, v = .temp id → live id) →
    σ v = .temp k → ¬ IsCast site.function k

theorem resolveSettles {before : PassState}
    (literal : ∀ x, (site.encoding.mapLiteral x).isTemp = false) (earlier : Entered site before)
    (complete : Complete site n s) :
    Settles site (Pass.resolve s site.encoding n ∘ before.operand site.encoding) := by
  refine ⟨fun v => resolveBecomes literal complete.entered n (operandBecomes earlier v), ?_⟩
  intro live rank ordered v k alive became
  obtain ⟨u, same, is⟩ := operandBecomes earlier v
  cases mapped : before.operand site.encoding v with
  | temp next =>
    rw [mapped] at is
    obtain rfl := encodedTemp literal is.symm
    have alive' : live next := by
      cases same with
      | here => exact alive next rfl
      | cast casts same => exact (chainOrdered ordered (alive _ rfl) casts same).1
    rw [Function.comp, mapped] at became
    have empty : ∀ u ∈ ([] : List TempId), u.toNat < n ∧ rank u < rank next := nofun
    exact resolveEnds literal complete ordered alive' List.nodup_nil empty (by simp) became
  | _ =>
    rw [Function.comp, mapped, resolveLiteral _ rfl] at became
    cases became

end Resolution
end FixedIL.Lowering
