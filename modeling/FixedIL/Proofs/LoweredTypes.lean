import FixedIL.Proofs.LoweredCalls
import FixedIL.Proofs.LoweredDefinitions

/-!
The types of what a lowered function defines, and of the values that stand for the results of its
conversions and comparisons. Lowered code types a result by its operation; a cast between forms
of a number leaves no code, so that its result has whatever type the value behind it has got.
-/
namespace FixedIL

theorem Function.tempTypeIff {f : Function} (once : f.DefinesOnce) {id : TempId} {type : Ty} :
    WellFormed.tempType? f.temps id = some type ↔ ⟨id, type⟩ ∈ f.temps := by
  constructor
  · intro found
    obtain ⟨t, first, rfl⟩ := Option.map_eq_some_iff.mp found
    have same : t.id = id := by simpa using List.find?_some first
    subst same
    exact List.mem_of_find?_eq_some first
  · intro member
    rw [WellFormed.tempType?]
    cases first : f.temps.find? (fun t => t.id = id) with
    | none =>
      have other : ¬ id = id := by simpa using List.find?_eq_none.mp first _ member
      exact absurd rfl other
    | some t =>
      have same : t.id = id := by simpa using List.find?_some first
      rw [List.inj_on_of_nodup_map once (List.mem_of_find?_eq_some first) member same]
      rfl

namespace Lowering

open Emit

def calledTypes (c : Config) (p : Program) (callee : String) : List Ty :=
  match p.functionNamed? callee with
  | some f => (f.sig.mapTypes (mapTy c.format)).returnTypes
  | none =>
    match c.registry.findSymbol? callee with
    | some hit => (hit.descriptor.prototype.flatten .fixedPoint).returnTypes
    | none => ((p.externNamed? callee).map fun e => e.sig.returnTypes).getD []

def retyped (c : Config) (p : Program) (i : Instr) : List Temp :=
  let typed (type : Ty) := i.results.map fun t => { t with type := type }
  match i.op with
  | .fconst | .select | .load => typed (mapTy c.format i.type)
  | .iconst | .fptosi => typed i.type
  | .sitofp | .float _ => typed .i32
  | .fcmp _ => typed .i1
  | .fpext | .fptrunc | .tofixed | .fromfixed => []
  | .call => tempsOf (calledTypes c p i.callee) i.resultIds
  | _ => i.results

def retypedBlock (c : Config) (p : Program) (f : Function) (b : Block) : List Temp :=
  mappedParams ((pass c).site p f) b ++ b.instrs.flatMap (retyped c p)

def retypedTemps (c : Config) (p : Program) (f : Function) : List Temp :=
  f.blocks.flatMap (retypedBlock c p f)

section Instructions

variable {c : Config} {p : Program} {f : Function} {σ : Value → Value} {i : Instr} {x : Emit Unit}
  {names : List (TempId × Value)} {is : List Instr} {s s' : PassState} {bs bs' : List Block}

theorem resolvesTypes {callee : String} {target : CallTarget}
    (resolves : Resolves c ((pass c).site p f) callee target) :
    target.plan.types = calledTypes c p callee := by
  cases resolves with
  | function own =>
    obtain ⟨g, named, rfl⟩ := Option.map_eq_some_iff.mp own
    change p.functionNamed? callee = some g at named
    rw [calledTypes, named]
    rfl
  | builtin foreign found fixed classified legal =>
    have unowned : p.functionNamed? callee = none := foreignSignature.mp foreign
    rw [calledTypes, unowned, found]
    exact classifiedTypes classified
  | outside foreign unknown declared floatFree =>
    have unowned : p.functionNamed? callee = none := foreignSignature.mp foreign
    change p.externNamed? callee = some _ at declared
    rw [calledTypes, unowned, unknown, declared]
    rfl

theorem retypesMember {t : Temp} (retypes : Retypes c ((pass c).site p f) i t) :
    t ∈ retyped c p i := by
  cases retypes with
  | constant result op => simp [retyped, op, result]
  | mapped result op =>
    have typed : (((pass c).site p f).encoding.mapTy i.type) = mapTy c.format i.type := rfl
    rcases op with op | op | op <;> simp [retyped, op, result, typed]
  | kept result op =>
    rw [retyped]
    rcases op with op | op
    · revert op
      cases i.op <;> first | exact fun _ => result | exact nofun
    · rw [op]
      exact result
  | encoded result op =>
    rcases op with op | ⟨-, float, op⟩ <;> simp [retyped, op, result]
  | compared result op => simp [retyped, op, result]
  | narrowed result op => simp [retyped, op, result]
  | called op resolves result =>
    rw [resolvesTypes resolves] at result
    rw [retyped, op]
    exact result

theorem retypedIds (lowered : Lowered c ((pass c).site p f) σ i x names) :
    (retyped c p i).map Temp.id = definedResults i := by
  have plain (op : i.op ≠ .call) : (retyped c p i).map Temp.id = definedResults i := by
    rw [retyped, definedResults]
    revert op
    cases i.op <;> simp [sameNumberCast]
  cases lowered with
  | one rewritten =>
    refine plain fun op => ?_
    cases rewritten <;> simp_all [copied]
  | sequence results sequenced =>
    refine plain fun op => ?_
    cases sequenced <;> simp_all
  | same cast =>
    refine plain fun op => ?_
    rw [op] at cast
    cases cast
  | call op resolves args results =>
    rw [retyped, op, definedResults, op]
    refine tempsOfIds ?_
    rw [← resolvesTypes resolves, Instr.resultIds, List.length_map, results]

theorem loweredRetypes (lowered : Lowered c ((pass c).site p f) σ i x names)
    (once : i.resultIds.Nodup) (e : Emission) :
    ∃ code, (x.run e).2.code = e.code ++ code ∧ retyped c p i ⊆ definedTemps code := by
  obtain ⟨y, names', ts, -, composed, ids, types, -⟩ :=
    loweredComposed (ρ := id) (fun _ _ => rfl) lowered
  obtain ⟨code, count, adds⟩ := Emit.composedAdds composed e
  refine ⟨code, adds.added, fun t member => adds.kept ?_⟩
  have retypedOnce : ((retyped c p i).map Temp.id).Nodup := by
    rw [retypedIds lowered]
    exact once.sublist (sublistResults i)
  have among : t.id ∈ ts.map Temp.id := by
    rw [ids, ← retypedIds lowered]
    exact List.mem_map_of_mem member
  obtain ⟨u, inside, same⟩ := List.mem_map.mp among
  rwa [← List.inj_on_of_nodup_map retypedOnce (retypesMember (types u inside)) member same]

theorem narrowedType (lowered : Lowered c ((pass c).site p f) σ i x names) (op : i.op = .fptosi) :
    mapTy c.format i.type = i.type := by
  have integer : i.type.isInteger = true := by
    cases lowered with
    | one rewritten => cases rewritten <;> simp_all [copied]
    | sequence results sequenced => cases sequenced <;> simp_all
    | same cast =>
      rw [op] at cast
      cases cast
    | call other =>
      rw [op] at other
      cases other
  refine plainType ?_
  revert integer
  cases i.type <;> simp [Ty.isInteger, Ty.isFloat]

theorem traceLowered (trace : Trace c ((pass c).site p f) is s s') (member : i ∈ is) :
    ∃ σ x names, Lowered c ((pass c).site p f) σ i x names := by
  induction trace with
  | nil => cases member
  | cons unseen lowered leads tail ih =>
    rcases List.mem_cons.mp member with rfl | member
    · exact ⟨_, _, _, lowered⟩
    · exact ih member

theorem traceRetypes (trace : Trace c ((pass c).site p f) is s s') :
    ∃ code, s'.emission.code = s.emission.code ++ code ∧
      is.flatMap (retyped c p) ⊆ definedTemps code := by
  induction trace with
  | nil => exact ⟨[], (List.append_nil _).symm, List.nil_subset _⟩
  | @cons i rest x names s mid s' unseen lowered leads tail ih =>
    obtain ⟨code, added, own⟩ :=
      loweredRetypes lowered (unseenOnce unseen).1 (located s i.loc).emission
    obtain ⟨more, later, others⟩ := ih
    rw [← leads.emission] at added
    refine ⟨code ++ more, ?_, ?_⟩
    · rw [later, added, List.append_assoc]
      rfl
    · rw [List.flatMap_cons, definedTempsAppend]
      exact List.append_subset.mpr ⟨List.Subset.trans own (List.subset_append_left ..),
        List.Subset.trans others (List.subset_append_right ..)⟩

theorem blocksLowered (trace : BlocksTrace c ((pass c).site p f) bs s bs' s') {b : Block}
    (block : b ∈ bs) (instr : i ∈ b.instrs) :
    ∃ σ x names, Lowered c ((pass c).site p f) σ i x names := by
  induction trace with
  | nil => cases block
  | cons trace tail ih =>
    rcases List.mem_cons.mp block with rfl | block
    · exact traceLowered trace instr
    · exact ih block

theorem blocksRetypes (trace : BlocksTrace c ((pass c).site p f) bs s bs' s') :
    bs.flatMap (retypedBlock c p f) ⊆ bs'.flatMap Block.temps := by
  induction trace with
  | nil => exact List.nil_subset _
  | @cons b rest converted s mid s' trace tail ih =>
    obtain ⟨code, written, own⟩ := traceRetypes trace
    have whole : mid.emission.code = code := written
    rw [List.flatMap_cons, List.flatMap_cons, retypedBlock, whole]
    refine List.append_subset.mpr ⟨List.append_subset.mpr ⟨?_, ?_⟩, ?_⟩
    · exact List.Subset.trans (List.subset_append_left ..) (List.subset_append_left ..)
    · exact List.Subset.trans own
        (List.Subset.trans (List.subset_append_right ..) (List.subset_append_left ..))
    · exact List.Subset.trans ih (List.subset_append_right ..)

end Instructions

section Functions

variable {c : Config} {p : Program} {f f' : Function} {externs : List Extern} {sig : Signature}
  {s' start : PassState} {bs : List Block} {n : Nat} {id : TempId} {type : Ty} {v w : Value}

theorem convertsRetypes (converts : Converts c p f n externs sig f' s' start bs) :
    retypedTemps c p f ⊆ f'.temps := by
  have renamed (b : Block) (ρ : Value → Value) : (renamedBlock ρ b).temps = b.temps := by
    simp [Block.temps, renamedBlock, List.flatMap_map, Instr.rename]
  have temps : f'.temps = bs.flatMap Block.temps := by
    rw [Function.temps, converts.blocks, List.flatMap_map]
    exact List.flatMap_congr fun b _ => renamed b _
  rw [temps]
  exact blocksRetypes converts.trace

theorem convertsIds (converts : Converts c p f n externs sig f' s' start bs) {b : Block}
    (block : b ∈ f.blocks) : (retypedBlock c p f b).map Temp.id = keptIds b := by
  rw [retypedBlock, keptIds, List.map_append, mappedParamsIds, List.map_flatMap]
  refine congrArg _ (List.flatMap_congr fun i instr => ?_)
  obtain ⟨σ, x, names, lowered⟩ := blocksLowered converts.trace block instr
  exact retypedIds lowered

theorem keptTyped (converts : Converts c p f n externs sig f' s' start bs)
    (fits : Fits f.idsEnd (handedOut f f')) (once : f'.DefinesOnce)
    (perm : (f'.temps.map Temp.id).Perm
      (freshIds f.idsEnd (handedOut f f') ++ f.blocks.flatMap keptIds))
    (known : ∃ t ∈ f.temps, t.id = id) :
    ⟨id, type⟩ ∈ f'.temps ↔ ⟨id, type⟩ ∈ retypedTemps c p f := by
  refine ⟨fun member => ?_, fun member => convertsRetypes converts member⟩
  have defined : id ∈ f'.temps.map Temp.id := List.mem_map_of_mem member
  rcases List.mem_append.mp (perm.subset defined) with new | kept
  · obtain ⟨t, source, rfl⟩ := known
    have below : t.id.toNat < f.idsEnd := Function.tempBelowEnd source _
    have above := (memFreshIds fits new).1
    omega
  · obtain ⟨b, block, kept⟩ := List.mem_flatMap.mp kept
    rw [← convertsIds converts block] at kept
    obtain ⟨t, among, same⟩ := List.mem_map.mp kept
    have retyped : t ∈ retypedTemps c p f := List.mem_flatMap.mpr ⟨b, block, among⟩
    rwa [← List.inj_on_of_nodup_map once (convertsRetypes converts retyped) member same]

theorem retypedKept (converts : Converts c p f n externs sig f' s' start bs)
    (member : ⟨id, type⟩ ∈ retypedTemps c p f) : ∃ b ∈ f.blocks, id ∈ keptIds b := by
  obtain ⟨b, block, inside⟩ := List.mem_flatMap.mp member
  exact ⟨b, block, convertsIds converts block ▸ List.mem_map_of_mem inside⟩

theorem keptNoCast (once : f.DefinesOnce) {b : Block} (block : b ∈ f.blocks)
    (kept : id ∈ keptIds b) : ¬ IsCast f id := by
  rcases List.mem_append.mp kept with param | result
  · obtain ⟨t, among, rfl⟩ := List.mem_map.mp param
    exact paramNoCast once block among
  · obtain ⟨i, instr, result⟩ := List.mem_flatMap.mp result
    rw [definedResults] at result
    split at result
    · cases result
    · rename_i other
      obtain ⟨t, among, rfl⟩ := List.mem_map.mp result
      exact resultNoCast once block instr among (by simpa using other)

theorem resultRetyped (converts : Converts c p f n externs sig f' s' start bs) {b : Block}
    {i : Instr} {t : Temp} (block : b ∈ f.blocks) (instr : i ∈ b.instrs) (result : t ∈ i.results) :
    ⟨t.id, type⟩ ∈ retypedTemps c p f ↔ ⟨t.id, type⟩ ∈ retyped c p i := by
  have once : f.DefinesOnce := convertsOnce converts
  have own : t.id ∈ i.resultIds := List.mem_map_of_mem result
  constructor
  · intro member
    obtain ⟨b', block', inside⟩ := List.mem_flatMap.mp member
    rcases List.mem_append.mp inside with param | result'
    · have defined : t.id ∈ (mappedParams ((pass c).site p f) b').map Temp.id :=
        List.mem_map.mpr ⟨_, param, rfl⟩
      rw [mappedParamsIds] at defined
      exact absurd own (Function.paramNoResult once block' defined block instr)
    · obtain ⟨i', instr', typed⟩ := List.mem_flatMap.mp result'
      obtain ⟨σ, x, names, lowered⟩ := blocksLowered converts.trace block' instr'
      have defined : t.id ∈ (retyped c p i').map Temp.id := List.mem_map.mpr ⟨_, typed, rfl⟩
      rw [retypedIds lowered] at defined
      obtain rfl := Function.resultOnce once block instr block' instr' own
        ((sublistResults i').subset defined)
      exact typed
  · intro typed
    exact List.mem_flatMap.mpr
      ⟨b, block, List.mem_append_right _ (List.mem_flatMap.mpr ⟨i, instr, typed⟩)⟩

end Functions

theorem resolveEnded {site : Site} {n : Nat} {s : PassState} {id : TempId} {w : Value}
    (literal : ∀ x, (site.encoding.mapLiteral x).isTemp = false) (complete : Complete site n s)
    (once : site.function.DefinesOnce) (same : Same site.function (.temp id) w)
    (ends : IsEnd site.function w) :
    Pass.resolve s site.encoding n (.temp id) = encoded site.encoding w := by
  obtain ⟨u, same', is⟩ :=
    resolveBecomes literal complete.entered n (⟨.temp id, .here _, rfl⟩ : Becomes site _ (.temp id))
  have ends' : IsEnd site.function u := by
    rintro k rfl
    exact resolveEnds literal complete (endingOrdered once) ⟨w, same, ends⟩ List.nodup_nil
      (List.forall_mem_nil _) (Nat.le_add_left ..) is
  rw [is, endOnce once same ends same' ends']

def standIn (c : Config) (f : Function) (s : PassState) (id : TempId) : Value :=
  Pass.resolve s (pass c).encoding f.nextTemp.toNat (.temp id)

def HasType (f : Function) (type : Ty) (v : Value) : Prop :=
  ∀ id, v = .temp id → WellFormed.tempType? f.temps id = some type

def EndsAs (c : Config) (p : Program) (f : Function) (type : Ty) (v : Value) : Prop :=
  ∃ w, Same f v w ∧ IsEnd f w ∧ ∀ id, w = .temp id → ⟨id, type⟩ ∈ retypedTemps c p f

def KeepsType (c : Config) (p : Program) (f : Function) (i : Instr) : Prop :=
  match i.op with
  | .fptosi => True
  | .sitofp => mapTy c.format i.type = .i32
  | .fcmp _ => mapTy c.format i.type = .i1
  | _ => ∃ v ∈ i.operands, EndsAs c p f (mapTy c.format i.type) v

section Conversions

variable {c : Config} {p : Program} {f f' : Function} {externs : List Extern} {sig : Signature}
  {s' start : PassState} {bs : List Block} {id : TempId} {type : Ty} {i : Instr} {b : Block}
  {t : Temp}

theorem standsTyped (sound : f.violation? p = none)
    (source : ∀ t ∈ f.temps, t.id.toNat + 1 < UInt32.size)
    (converts : Converts c p f f.nextTemp.toNat externs sig f' s' start bs)
    (fits : Fits f.idsEnd (handedOut f f')) (once' : f'.DefinesOnce)
    (perm : (f'.temps.map Temp.id).Perm
      (freshIds f.idsEnd (handedOut f f') ++ f.blocks.flatMap keptIds))
    (known : ∃ t ∈ f.temps, t.id = id) :
    HasType f' type (standIn c f s' id) ↔ EndsAs c p f type (.temp id) := by
  have once : f.DefinesOnce := WellFormed.definesOnce sound
  have complete := convertsComplete sound source converts
  constructor
  · intro typed
    obtain ⟨u, same, is⟩ := resolveBecomes (fun _ => rfl) complete.entered f.nextTemp.toNat
      (⟨.temp id, .here _, rfl⟩ : Becomes ((pass c).site p f) _ (.temp id))
    have given (k : TempId) (temp : u = .temp k) : ⟨k, type⟩ ∈ retypedTemps c p f := by
      subst temp
      have known' : ∃ t ∈ f.temps, t.id = k := sameDefined sound same fun _ own => by
        cases own
        exact known
      exact (keptTyped converts fits once' perm known').mp
        ((Function.tempTypeIff once').mp (typed k is))
    refine ⟨u, same, fun k temp => ?_, given⟩
    obtain ⟨b, block, kept⟩ := retypedKept converts (given k temp)
    exact keptNoCast once block kept
  · rintro ⟨w, same, ends, given⟩ k is
    have end' : encoded (pass c).encoding w = .temp k :=
      (resolveEnded (fun _ => rfl) complete once same ends).symm.trans is
    have literal (x : Float) : (((pass c).site p f).encoding.mapLiteral x).isTemp = false := rfl
    have temp : w = .temp k := encodedTemp literal end'
    exact (Function.tempTypeIff once').mpr (convertsRetypes converts (given k temp))

theorem endsAsCast (once : f.DefinesOnce) (block : b ∈ f.blocks) (instr : i ∈ b.instrs)
    (cast : sameNumberCast i.op = true) {v : Value} (operands : i.operands = [v])
    (results : i.resultIds = [id]) :
    EndsAs c p f type (.temp id) ↔ EndsAs c p f type v := by
  have casts : Casts f id v := ⟨b, block, i, instr, cast, operands, results⟩
  constructor
  · rintro ⟨w, same, ends, given⟩
    cases same with
    | here => exact absurd ⟨v, casts⟩ (ends id rfl)
    | cast casts' same =>
      obtain rfl := castsOnce once casts casts'
      exact ⟨w, same, ends, given⟩
  · rintro ⟨w, same, ends, given⟩
    exact ⟨w, .cast casts same, ends, given⟩

theorem endsAsOwn (converts : Converts c p f f.nextTemp.toNat externs sig f' s' start bs)
    (block : b ∈ f.blocks) (instr : i ∈ b.instrs) (result : t ∈ i.results)
    (other : sameNumberCast i.op = false) :
    EndsAs c p f type (.temp t.id) ↔ ⟨t.id, type⟩ ∈ retyped c p i := by
  have own : ¬ IsCast f t.id := resultNoCast (convertsOnce converts) block instr result other
  rw [← resultRetyped converts block instr result]
  constructor
  · rintro ⟨w, same, ends, given⟩
    cases same with
    | here => exact given _ rfl
    | cast casts => exact absurd ⟨_, casts⟩ own
  · intro given
    refine ⟨.temp t.id, .here _, ?_, ?_⟩
    · rintro k ⟨⟩
      exact own
    · rintro k ⟨⟩
      exact given

theorem endsAsKeeps (sound : f.violation? p = none)
    (converts : Converts c p f f.nextTemp.toNat externs sig f' s' start bs) (block : b ∈ f.blocks)
    (instr : i ∈ b.instrs) (results : i.results = [t])
    (kind : i.op.category = .conversion ∨ i.op.category = .floatCompare) :
    EndsAs c p f (mapTy c.format i.type) (.temp t.id) ↔ KeepsType c p f i := by
  have result : t ∈ i.results := results ▸ List.mem_singleton_self t
  by_cases cast : sameNumberCast i.op = true
  · obtain ⟨v, r, operands, -⟩ := castShape (WellFormed.instrSound sound block instr) cast
    have alone : i.resultIds = [t.id] := by
      rw [Instr.resultIds, results]
      rfl
    have keeps : KeepsType c p f i ↔ ∃ v ∈ i.operands, EndsAs c p f (mapTy c.format i.type) v := by
      rw [KeepsType]
      revert cast
      cases i.op <;> simp [sameNumberCast]
    rw [endsAsCast (WellFormed.definesOnce sound) block instr cast operands alone]
    simp [keeps, operands]
  · rw [endsAsOwn converts block instr result (by simpa using cast), retyped, KeepsType, results]
    obtain ⟨σ, x, names, lowered⟩ := blocksLowered converts.trace block instr
    cases op : i.op with
    | sitofp | fcmp => simp
    | fptosi => simp [narrowedType lowered op]
    | _ => simp_all [Opcode.category, sameNumberCast]

/-- Of the types that results of conversions and comparisons are declared with, only that of an
integer made of a float is looked at: a comparison gives a truth value, what comes of an integer
has 32 bits, and a cast leaves the type to its operand. What stands for a result is a literal, or
a temporary of the declared type, exactly if this is the type that it gets. -/
theorem conversionsTyped (sound : f.violation? p = none)
    (gives : ((pass c).function p f (f.sig.mapTypes (mapTy c.format))).Gives (Pass.begun externs)
      f' s') (room : f.idsEnd + handedOut f f' < UInt32.size) :
    ∀ i ∈ f.code, i.op.category = .conversion ∨ i.op.category = .floatCompare → ∀ t ∈ i.results,
      (HasType f' (mapTy c.format t.type) (standIn c f s' t.id) ↔ KeepsType c p f i) := by
  have fits : Fits f.idsEnd (handedOut f f') := fitsBelow room
  have lowers : Lowers c p f f' := ⟨externs, s', gives⟩
  have source (t : Temp) (member : t ∈ f.temps) : t.id.toNat + 1 < UInt32.size := by
    have below : t.id.toNat < f.idsEnd := Function.tempBelowEnd member _
    omega
  obtain ⟨start, bs, converts⟩ := convertsNext source gives
  intro i code kind t result
  obtain ⟨b, block, instr⟩ := List.mem_flatMap.mp code
  have one : i.op.results = .one := by
    revert kind
    cases i.op <;> simp [Opcode.category, Opcode.results]
  obtain ⟨r, results, typed⟩ := WellFormed.oneResult (WellFormed.instrSound sound block instr) one
  obtain rfl : t = r := List.mem_singleton.mp (results ▸ result)
  have known : ∃ u ∈ f.temps, u.id = t.id := ⟨t, Function.memTemps block instr result, rfl⟩
  rw [typed, standsTyped sound source converts fits (loweringDefinesOnce lowers fits).once
    (lowersCounted lowers fits).2 known]
  exact endsAsKeeps sound converts block instr results kind

end Conversions

def rawSource : Function where
  name := "raw"
  sig := .ofTypes [.f32] [.i64]
  blocks := [⟨"entry", [⟨0, .f32⟩], [
    { Instr.blank .tofixed with type := .i64, results := [⟨1, .i64⟩], operands := [.temp 0] },
    { Instr.blank .ret with operands := [.temp 1] }]⟩]
  slots := []
  valueNames := []

def rawTarget : Function where
  name := "raw"
  sig := .ofTypes [.i32] [.i64]
  blocks := [⟨"entry", [⟨0, .i32⟩], [{ Instr.blank .ret with operands := [.temp 0] }]⟩]
  slots := []
  valueNames := []

theorem rawLosesType : rawSource.violation? ⟨[], [rawSource]⟩ = none ∧
    (∃ externs s', ((pass squareConfig).function ⟨[], [rawSource]⟩ rawSource
        (rawSource.sig.mapTypes (mapTy squareConfig.format))).Gives (Pass.begun externs)
          rawTarget s' ∧ ¬ HasType rawTarget .i64 (standIn squareConfig rawSource s' 1)) ∧
    (rawTarget.violation? ⟨[], [rawTarget]⟩).isSome = true := by
  have sound : rawSource.violation? ⟨[], [rawSource]⟩ = none := by decide +kernel
  have run : (pass squareConfig).runFunction ⟨[], [rawSource]⟩ [] rawSource =
      .ok (rawTarget, []) := okOfOption (by decide +kernel)
  obtain ⟨externs, s', gives⟩ := runFunctionLowers (by decide +kernel) run
  refine ⟨sound, ⟨externs, s', gives, fun typed => ?_⟩, by decide +kernel⟩
  have keeps := (conversionsTyped sound gives (by decide +kernel)
    { Instr.blank .tofixed with type := .i64, results := [⟨1, .i64⟩], operands := [.temp 0] }
    (by decide +kernel) (.inl rfl) ⟨1, .i64⟩ List.mem_cons_self).mp typed
  obtain ⟨v, operand, w, same, ends, given⟩ := keeps
  obtain rfl := List.mem_singleton.mp operand
  have param : ¬ IsCast rawSource 0 := by
    rintro ⟨v, casts⟩
    simp [Casts, rawSource, Instr.resultIds, sameNumberCast, Instr.blank] at casts
  cases same with
  | here =>
    have other : (⟨0, .i64⟩ : Temp) ∉ retypedTemps squareConfig ⟨[], [rawSource]⟩ rawSource := by
      decide +kernel
    exact other (given 0 rfl)
  | cast casts => exact param ⟨_, casts⟩

end Lowering
end FixedIL
