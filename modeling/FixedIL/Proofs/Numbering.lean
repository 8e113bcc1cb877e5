import FixedIL.Proofs.Writing

/-!
What an emission defines: fresh temporaries, numbered one after another, and the ids it is asked
for once each. The counter is followed as a natural number, so that it may reach the end of its
32 bits as long as nothing behind it is handed out.
-/
namespace FixedIL

def freshIds (next count : Nat) : List TempId := (List.range' next count).map UInt32.ofNat

theorem freshIdsAppend (next k k' : Nat) :
    freshIds next k ++ freshIds (next + k) k' = freshIds next (k + k') := by
  simp [freshIds, ← List.map_append, List.range'_append_1]

theorem numberedTwice {α : Type} {ids ids' new new' r r' : List α} (perm : ids.Perm (new ++ r))
    (perm' : ids'.Perm (new' ++ r')) : (ids ++ ids').Perm ((new ++ new') ++ (r ++ r')) := by
  refine (perm.append perm').trans ?_
  rw [List.append_assoc, List.append_assoc]
  refine List.Perm.append_left _ ?_
  rw [← List.append_assoc, ← List.append_assoc]
  exact List.Perm.append_right _ List.perm_append_comm

def Numbered (next count : Nat) (r : List Temp) (code : List Instr) : Prop :=
  ∃ fresh : List Temp, fresh.map Temp.id = freshIds next count ∧
    (definedTemps code).Perm (fresh ++ r)

namespace Numbered

variable {next count count' : Nat} {r r' : List Temp} {code code' : List Instr}

theorem nil : Numbered next 0 [] [] := ⟨[], rfl, .nil⟩

theorem ids (numbered : Numbered next count r code) :
    (definedIds code).Perm (freshIds next count ++ r.map Temp.id) := by
  obtain ⟨fresh, ids, perm⟩ := numbered
  rw [← ids, ← List.map_append]
  exact perm.map Temp.id

theorem append (first : Numbered next count r code)
    (second : Numbered (next + count) count' r' code') :
    Numbered next (count + count') (r ++ r') (code ++ code') := by
  obtain ⟨fresh, ids, perm⟩ := first
  obtain ⟨fresh', ids', perm'⟩ := second
  refine ⟨fresh ++ fresh', ?_, ?_⟩
  · rw [List.map_append, ids, ids', freshIdsAppend]
  · rw [definedTempsAppend]
    exact numberedTwice perm perm'

end Numbered

def Fits (n count : Nat) : Prop := ∀ k < count, n + k < UInt32.size

section Fits

variable {n count count' : Nat}

theorem fitsFirst (fits : Fits n (count + count')) : Fits n count :=
  fun k inside => fits k (Nat.lt_add_right count' inside)

theorem fitsRest (fits : Fits n (count + count')) : Fits (n + count) count' := fun k inside => by
  rw [Nat.add_assoc]
  exact fits _ (Nat.add_lt_add_left inside count)

theorem fitsBelow (room : n + count < UInt32.size) : Fits n count :=
  fun _ inside => Nat.lt_trans (Nat.add_lt_add_left inside n) room

theorem memFreshIds {id : TempId} (fits : Fits n count) (member : id ∈ freshIds n count) :
    n ≤ id.toNat ∧ id.toNat < n + count := by
  obtain ⟨k, inside, rfl⟩ := List.mem_map.mp member
  obtain ⟨low, high⟩ := List.mem_range'_1.mp inside
  have small : n + (k - n) < UInt32.size := fits (k - n) (by omega)
  rw [UInt32.toNat_ofNat_of_lt' (by omega)]
  exact ⟨low, high⟩

theorem freshIdsIff {id : TempId} (fits : Fits n count) :
    id ∈ freshIds n count ↔ n ≤ id.toNat ∧ id.toNat < n + count := by
  refine ⟨memFreshIds fits, fun ⟨low, high⟩ => ?_⟩
  exact List.mem_map.mpr ⟨id.toNat, List.mem_range'_1.mpr ⟨low, high⟩, UInt32.ofNat_toNat⟩

theorem freshIdsOnce (fits : Fits n count) : (freshIds n count).Nodup := by
  induction count generalizing n with
  | zero => exact List.nodup_nil
  | succ count ih =>
    have first : freshIds n (count + 1) = UInt32.ofNat n :: freshIds (n + 1) count := rfl
    have rest : Fits (n + 1) count := fitsRest (Nat.add_comm count 1 ▸ fits)
    rw [first]
    refine List.nodup_cons.mpr ⟨fun again => ?_, ih rest⟩
    have above := (memFreshIds rest again).1
    have small : n + 0 < UInt32.size := fits 0 (Nat.succ_pos count)
    rw [UInt32.toNat_ofNat_of_lt' (by omega)] at above
    omega

end Fits

namespace Function

def idsEnd (f : Function) : Nat :=
  f.temps.foldl (fun next t => max next (t.id.toNat + 1)) f.valueNames.length

structure Fresh (f : Function) (id : TempId) : Prop where
  above : f.nextTemp ≤ id
  undefined : ∀ t ∈ f.temps, t.id ≠ id
  unnamed : f.valueNames.length ≤ id.toNat

theorem startBelowEnd (ts : List Temp) (start : Nat) :
    start ≤ ts.foldl (fun next t => max next (t.id.toNat + 1)) start := by
  induction ts generalizing start with
  | nil => exact Nat.le_refl _
  | cons t rest ih => exact Nat.le_trans (Nat.le_max_left ..) (ih _)

theorem tempBelowEnd {ts : List Temp} {t : Temp} (member : t ∈ ts) (start : Nat) :
    t.id.toNat < ts.foldl (fun next t => max next (t.id.toNat + 1)) start := by
  induction ts generalizing start with
  | nil => cases member
  | cons u rest ih =>
    rcases List.mem_cons.mp member with rfl | member
    · exact Nat.lt_of_lt_of_le (Nat.lt_of_succ_le (Nat.le_max_right ..)) (startBelowEnd rest _)
    · exact ih member _

theorem countsMax {ts : List Temp} {start : TempId} {n : Nat} (counts : start.toNat = n)
    (small : ts.foldl (fun next t => max next (t.id.toNat + 1)) n < UInt32.size) :
    (ts.foldl (fun next t => max next (t.id + 1)) start).toNat =
      ts.foldl (fun next t => max next (t.id.toNat + 1)) n := by
  induction ts generalizing start n with
  | nil => exact counts
  | cons t rest ih =>
    refine ih (maxCounts counts ?_) small
    have inside := Nat.lt_of_le_of_lt (startBelowEnd rest (max n (t.id.toNat + 1))) small
    have room := Nat.lt_of_le_of_lt (Nat.le_max_right n (t.id.toNat + 1)) inside
    rw [UInt32.toNat_add]
    exact Nat.mod_eq_of_lt room

variable {f : Function}

theorem nextTempEnd (small : f.idsEnd < UInt32.size) : f.nextTemp.toNat = f.idsEnd := by
  refine countsMax ?_ small
  have names := Nat.lt_of_le_of_lt (startBelowEnd f.temps f.valueNames.length) small
  exact UInt32.toNat_ofNat_of_lt' names

theorem freshAbove {id : TempId} (above : f.idsEnd ≤ id.toNat) : f.Fresh id := by
  refine ⟨UInt32.le_iff_toNat_le.mpr ?_, fun t member same => ?_,
    Nat.le_trans (startBelowEnd f.temps _) above⟩
  · rw [nextTempEnd (Nat.lt_of_le_of_lt above (UInt32.toNat_lt_size id))]
    exact above
  · have below : t.id.toNat < f.idsEnd := tempBelowEnd member _
    rw [same] at below
    omega

end Function

def Emission.Counts (e : Emission) (n : Nat) : Prop := n < UInt32.size → e.nextTemp.toNat = n

namespace Emit

variable {α : Type} {ρ : Value → Value} {allowed : Opcode → Bool} {l : Loc} {f : α → α}
  {r r' : List Temp} {e mid e' : Emission} {code code' : List Instr} {count count' : Nat}

/-- Code with allowed operations is added at the place `l`; it defines the temporaries `r` and so
many fresh ones, which are numbered from the next id on. -/
structure Adds (allowed : Opcode → Bool) (l : Loc) (r : List Temp) (e e' : Emission)
    (code : List Instr) (count : Nat) : Prop where
  added : e'.code = e.code ++ code
  loc : e'.loc = e.loc
  slots : e.slots <+: e'.slots
  admitted : ∀ i ∈ code, allowed i.op = true
  placed : e.loc = l → ∀ i ∈ code, i.loc = l
  size : (definedTemps code).length = count + r.length
  kept : r ⊆ definedTemps code
  counts : ∀ n, e.Counts n → (∀ t ∈ r, t.id.toNat < n) → e'.Counts (n + count)
  numbered : ∀ n, e.Counts n → (∀ t ∈ r, t.id.toNat < n) → Fits n count → Numbered n count r code

theorem Adds.append (first : Adds allowed l r e mid code count)
    (second : Adds allowed l r' mid e' code' count') :
    Adds allowed l (r ++ r') e e' (code ++ code') (count + count') := by
  have counted {n : Nat} (counts : e.Counts n) (old : ∀ t ∈ r ++ r', t.id.toNat < n) :
      (∀ t ∈ r, t.id.toNat < n) ∧ mid.Counts (n + count) ∧ ∀ t ∈ r', t.id.toNat < n + count := by
    have own (t : Temp) (member : t ∈ r) := old t (List.mem_append_left _ member)
    exact ⟨own, first.counts n counts own, fun t member =>
      Nat.lt_add_right count (old t (List.mem_append_right _ member))⟩
  refine ⟨?_, second.loc.trans first.loc, first.slots.trans second.slots, fun i member => ?_,
    fun here i member => ?_, ?_, ?_, fun n counts old => ?_, fun n counts old fits => ?_⟩
  · rw [second.added, first.added, List.append_assoc]
  · exact (List.mem_append.mp member).elim (first.admitted i) (second.admitted i)
  · exact (List.mem_append.mp member).elim (first.placed here i)
      (second.placed (first.loc.trans here) i)
  · rw [definedTempsAppend, List.length_append, first.size, second.size, List.length_append]
    omega
  · rw [definedTempsAppend]
    exact List.append_subset.mpr ⟨List.Subset.trans first.kept (List.subset_append_left ..),
      List.Subset.trans second.kept (List.subset_append_right ..)⟩
  · obtain ⟨-, counts', old'⟩ := counted counts old
    rw [← Nat.add_assoc]
    exact second.counts _ counts' old'
  · obtain ⟨own, counts', old'⟩ := counted counts old
    exact (first.numbered n counts own (fitsFirst fits)).append
      (second.numbered _ counts' old' (fitsRest fits))

theorem addsNoCode (code : e'.code = e.code) (loc : e'.loc = e.loc) (slots : e.slots <+: e'.slots)
    (next : e'.nextTemp = e.nextTemp) : Adds allowed l [] e e' [] 0 :=
  ⟨by rw [code, List.append_nil], loc, slots, List.forall_mem_nil _,
    fun _ => List.forall_mem_nil _, rfl, List.nil_subset _,
    fun _ counts _ small => next ▸ counts small, fun _ _ _ _ => .nil⟩

theorem placedHere {i : Instr} (here : e.loc = l) (place : i.loc.hasLine = true → i.loc = l) :
    (e.placed i).loc = l := by
  unfold Emission.placed
  split
  · exact place ‹_›
  · exact here

theorem pushInside {e : Emission} {i : Instr}
    (old : ∀ id ∈ i.results.map Temp.id, id.toNat < e.nextTemp.toNat) :
    e.push i = { e with code := e.code ++ [e.placed i] } := by
  have skip (ids : List TempId) (old : ∀ id ∈ ids, id.toNat < e.nextTemp.toNat) :
      ids.foldl (fun next id => if next ≤ id then id + 1 else next) e.nextTemp = e.nextTemp := by
    induction ids with
    | nil => rfl
    | cons id rest ih =>
      have low : ¬ e.nextTemp ≤ id := fun le => Nat.lt_irrefl _
        (Nat.lt_of_lt_of_le (old id List.mem_cons_self) (UInt32.le_iff_toNat_le.mp le))
      rw [List.foldl_cons, if_neg low]
      exact ih fun id hid => old id (List.mem_cons_of_mem _ hid)
  simp only [Emission.push, Emission.skipTemps, skip _ old]

theorem pushCounts {i : Instr} {n : Nat} (counts : e.Counts n)
    (old : ∀ t ∈ i.results, t.id.toNat < n) : (e.push i).Counts n := fun small => by
  have next := counts small
  rw [pushInside fun id member => ?_]
  · exact next
  · obtain ⟨t, result, rfl⟩ := List.mem_map.mp member
    exact next ▸ old t result

theorem pushAdds {i : Instr} (ok : allowed i.op = true) (place : i.loc.hasLine = true → i.loc = l) :
    Adds allowed l i.results e (e.push i) [e.placed i] 0 := by
  have defined : definedTemps [e.placed i] = i.results := by simp [definedTemps, placedResults]
  refine ⟨rfl, rfl, List.prefix_rfl, fun j member => ?_, fun here j member => ?_, ?_, ?_,
    fun n counts old => pushCounts counts old, fun n _ _ _ => ⟨[], rfl, ?_⟩⟩
  · rw [List.mem_singleton.mp member, placedOp]
    exact ok
  · rw [List.mem_singleton.mp member]
    exact placedHere here place
  · rw [defined, Nat.zero_add]
  · exact defined ▸ List.Subset.refl _
  · rw [defined]
    exact .refl _

theorem emitAdds {op : Opcode} {type : Ty} {operands : List Value} (ok : allowed op = true) :
    Adds allowed l [] e (emitted op type operands e) [computing op type operands e.nextTemp e.loc]
      1 := by
  refine ⟨rfl, rfl, List.prefix_rfl, fun j member => ?_, fun here j member => ?_, rfl,
    List.nil_subset _, fun n counts _ small => ?_,
    fun n counts _ fits => ⟨[⟨e.nextTemp, type⟩], ?_, .refl _⟩⟩
  · rw [List.mem_singleton.mp member]
    exact ok
  · rw [List.mem_singleton.mp member]
    exact here
  · have next := counts (Nat.lt_of_succ_lt small)
    change (e.nextTemp + 1).toNat = n + 1
    rw [UInt32.toNat_add, next]
    exact Nat.mod_eq_of_lt small
  · have next : e.nextTemp.toNat = n := counts (fits 0 Nat.zero_lt_one)
    simp [freshIds, ← next]

theorem composedAdds {x y : Emit α} (composed : Composed ρ allowed l f x y r) (e : Emission) :
    ∃ code count, Adds allowed l r e (x.run e).2 code count := by
  induction composed generalizing e with
  | pure a => exact ⟨_, _, addsNoCode rfl rfl List.prefix_rfl rfl⟩
  | @bind α β f f' x y g h r r' first second ih ih' =>
    obtain ⟨code, count, one⟩ := ih e
    obtain ⟨code', count', two⟩ := ih' (x.run e).1 (x.run e).2
    exact ⟨_, _, by rw [StateT.run_bind]; exact one.append two⟩
  | append ok place => exact ⟨_, _, pushAdds ok place⟩
  | @define op type operands operands' id ok same =>
    exact ⟨_, _, pushAdds (i := { Instr.blank op with
      type := type, operands := operands, results := [⟨id, type⟩] }) ok nofun⟩
  | emit ok same =>
    rw [emitRun]
    exact ⟨_, _, emitAdds ok⟩
  | slot => exact ⟨_, _, addsNoCode rfl rfl (List.prefix_append ..) rfl⟩

end Emit
end FixedIL
