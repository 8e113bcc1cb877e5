import FixedIL.Proofs.SharedMemory
import FixedIL.Proofs.StoredTypes

/-!
Frames of the source and of lowered code side by side. Wherever a temporary may be read, what it has
become holds its word. Lowered code keeps no copy of a cast, and so this rests on dominance: what a
live name stands for is not defined again before the name is.
-/
namespace FixedIL

namespace Function

variable {f : Function} {trail ids : List TempId} {code mid : List Instr} {id : TempId}

theorem edgeDefined (path : f.Path trail mid) (edge : f.Edge mid ids code) (member : id ∈ ids) :
    ∃ t ∈ f.temps, t.id = id := by
  cases edge with
  | next plain =>
    obtain ⟨b, block, inside⟩ := pathWithin path
    obtain ⟨t, result, same⟩ := List.mem_map.mp member
    exact ⟨t, memTemps block (inside.subset List.mem_cons_self) result, same⟩
  | jump branch target named =>
    obtain ⟨t, param, same⟩ := List.mem_map.mp member
    exact ⟨t, memParams (blockNamedMem named) param, same⟩

theorem pathDefined (path : f.Path trail code) (member : id ∈ trail) :
    ∃ t ∈ f.temps, t.id = id := by
  induction path with
  | @enter entry rest first =>
    obtain ⟨t, param, same⟩ := List.mem_map.mp member
    exact ⟨t, memParams (first ▸ List.mem_cons_self) param, same⟩
  | move path edge ih =>
    exact (List.mem_append.mp member).elim (edgeDefined path edge) ih

theorem dominatesEdge (edge : f.Edge mid ids code) (dominates : f.Dominates id code)
    (new : id ∉ ids) : f.Dominates id mid := fun _ path =>
  (List.mem_append.mp (dominates _ (.move path edge))).resolve_left new

theorem dominatesEntry {entry : Block} {rest : List Block} (first : f.blocks = entry :: rest)
    (dominates : f.Dominates id entry.instrs) : id ∈ entry.paramIds :=
  dominates _ (.enter first)

end Function

namespace Lowering

/-- In lowered code, what a live temporary has become holds its word. -/
def Agrees (c : Config) (fn : Function) (code : List Instr) (f f' : Frame) : Prop :=
  ∀ id, fn.Dominates id code → ∀ u, Same fn (.temp id) u → IsEnd fn u →
    f'.value? .ieee (encoded (pass c).encoding u) = f.regs[id.toNat]?

variable {c : Config} {fn : Function} {trail ids : List TempId} {code next : List Instr}
  {f f' g g' : Frame} {u v : Value} {id : TempId}

theorem sameLiteral (same : Same fn v u) (plain : v.isTemp = false) : u = v := by
  cases same with
  | here => rfl
  | cast => cases plain

theorem sameEnd (same : Same fn v u) (ends : IsEnd fn v) : u = v := by
  cases same with
  | here => rfl
  | cast casts => exact absurd ⟨_, casts⟩ (ends _ rfl)

theorem encodedLiteral (plain : v.isTemp = false) :
    f'.value? .ieee (encoded (pass c).encoding v) = f.value? .encoded v := by
  cases v with
  | temp => cases plain
  | _ => rfl

theorem Agrees.ended (agrees : Agrees c fn code f f')
    (live : ∀ id, v = .temp id → fn.Dominates id code) (same : Same fn v u) (ends : IsEnd fn u) :
    f'.value? .ieee (encoded (pass c).encoding u) = f.value? .encoded v := by
  cases v with
  | temp id => exact agrees id (live id rfl) u same ends
  | _ =>
    rw [sameLiteral same rfl]
    exact encodedLiteral rfl

section Settled

variable {p : Program} {σ : Value → Value} (settles : Settles ((pass c).site p fn) σ)
  (dominated : fn.UsesDominated) (once : fn.DefinesOnce) (path : fn.Path trail code)

include settles dominated once path

theorem settledEnd (live : ∀ id, v = .temp id → fn.Dominates id code) :
    ∃ u, Same fn v u ∧ IsEnd fn u ∧ σ v = encoded (pass c).encoding u := by
  obtain ⟨u, same, is⟩ := settles.becomes v
  refine ⟨u, same, fun id temp => ?_, is⟩
  rw [temp] at is
  exact settles.ends _ _ (dominatedOrdered dominated once path) v id live is

theorem Agrees.value (agrees : Agrees c fn code f f')
    (live : ∀ id, v = .temp id → fn.Dominates id code) :
    f'.value? .ieee (σ v) = f.value? .encoded v := by
  obtain ⟨u, same, ends, is⟩ := settledEnd settles dominated once path live
  rw [is]
  exact agrees.ended live same ends

theorem Agrees.values (agrees : Agrees c fn code f f') {vs : List Value}
    (live : ∀ id, .temp id ∈ vs → fn.Dominates id code) :
    f'.values? .ieee (vs.map σ) = f.values? .encoded vs := by
  induction vs with
  | nil => rfl
  | cons v vs ih =>
    have first := agrees.value settles dominated once path fun id same =>
      live id (same ▸ List.mem_cons_self)
    have others := ih fun id member => live id (List.mem_cons_of_mem _ member)
    unfold Frame.values? at others ⊢
    rw [List.map_cons, List.mapM_cons, List.mapM_cons, first, others]

end Settled

theorem usedLive (dominated : fn.UsesDominated) {i : Instr} {rest : List Instr}
    (uses : i.Uses id) : fn.Dominates id (i :: rest) :=
  fun trail path => dominated trail i rest path id uses

section Advance

variable (dominated : fn.UsesDominated) (once : fn.DefinesOnce)

include dominated once

theorem endUntouched {k : TempId} (path : fn.Path trail code) (edge : fn.Edge code ids next)
    (dominates : fn.Dominates id next) (new : id ∉ ids) (same : Same fn (.temp id) (.temp k)) :
    k ∉ ids := by
  cases same with
  | here => exact new
  | cast casts same =>
    have ordered := dominatedOrdered dominated once (.move path edge)
    obtain ⟨-, newer⟩ := chainOrdered ordered dominates casts same
    intro again
    rw [List.idxOf_append_of_mem again, List.idxOf_append_of_notMem new] at newer
    have inside := List.idxOf_lt_length_of_mem again
    omega

theorem Agrees.advance (sound : ∃ p, fn.violation? p = none) (agrees : Agrees c fn code f f')
    (path : fn.Path trail code) (edge : fn.Edge code ids next)
    (plain : ∀ id ∈ ids, ¬ IsCast fn id)
    (defined : ∀ id ∈ ids, g'.regs[id.toNat]? = g.regs[id.toNat]?)
    (kept : ∀ id ∉ ids, g.regs[id.toNat]? = f.regs[id.toNat]?)
    (kept' : ∀ id ∉ ids, (∃ t ∈ fn.temps, t.id = id) → g'.regs[id.toNat]? = f'.regs[id.toNat]?) :
    Agrees c fn next g g' := by
  intro id dominates u same ends
  by_cases new : id ∈ ids
  · have own : IsEnd fn (.temp id) := fun k is => Value.temp.inj is ▸ plain id new
    rw [sameEnd same own]
    exact defined id new
  · have before := agrees id (Function.dominatesEdge edge dominates new) u same ends
    rw [kept id new, ← before]
    cases u with
    | temp k =>
      obtain ⟨p, sound⟩ := sound
      have known : ∃ t ∈ fn.temps, t.id = k := sameDefined sound same fun j is =>
        Function.pathDefined (.move path edge) (Value.temp.inj is ▸ dominates _ (.move path edge))
      exact kept' k (endUntouched dominated once path edge dominates new same) known
    | _ => rfl

omit dominated in
theorem Agrees.cast {i : Instr} {r : TempId} (agrees : Agrees c fn (i :: next) f f')
    (edge : fn.Edge (i :: next) [r] next) (casts : Casts fn r v)
    (live : ∀ id, v = .temp id → fn.Dominates id (i :: next))
    (copied : g.regs[r.toNat]? = f.value? .encoded v)
    (kept : ∀ id ≠ r, g.regs[id.toNat]? = f.regs[id.toNat]?) : Agrees c fn next g f' := by
  intro id dominates u same ends
  by_cases new : id = r
  · subst new
    cases same with
    | here => exact absurd ⟨_, casts⟩ (ends _ rfl)
    | cast casts' same =>
      obtain rfl := castsOnce once casts casts'
      rw [copied]
      exact agrees.ended live same ends
  · rw [kept id new]
    have other : id ∉ [r] := fun member => new (List.mem_singleton.mp member)
    exact agrees id (Function.dominatesEdge edge dominates other) u same ends

omit dominated in
theorem agreesEntered {entry : Block} {rest : List Block} (first : fn.blocks = entry :: rest)
    (params : ∀ id ∈ entry.paramIds, f'.regs[id.toNat]? = f.regs[id.toNat]?) :
    Agrees c fn entry.instrs f f' := by
  intro id dominates u same ends
  have param := Function.dominatesEntry first dominates
  have own : IsEnd fn (.temp id) := fun k is => by
    obtain ⟨t, among, same⟩ := List.mem_map.mp param
    rw [← Value.temp.inj is, ← same]
    exact paramNoCast once (first ▸ List.mem_cons_self) among
  rw [sameEnd same own]
  exact params id param

end Advance

def setting (c : Config) (p : Program) (externs : List Extern) (fn fn' : Function) : Setting :=
  ⟨c, (pass c).site p fn, fn.nextTemp.toNat, fn'.slots, externs⟩

structure Mirrors (c : Config) (p p' : Program) (fn : Function) (f f' : Frame) : Prop where
  source : fn ∈ p.functions
  made : LoweredFunction c p p'.externs fn f'.fn
  slotted : f.fn = fn.withSlots f'.fn.slots
  label : f'.label = f.label
  firstBuffer : f'.firstBuffer = f.firstBuffer
  path : ∃ trail, fn.Path trail f.rest
  segments : Segments (setting c p p'.externs fn f'.fn) f.rest f'.rest
  agrees : Agrees c fn f.rest f f'

theorem assignedAlike {ts ts' : List Temp} {ws : List Word} (ids : ts'.map Temp.id = ts.map Temp.id)
    (count : ws.length = ts.length) (assigned : f.assign? ts ws = some g)
    (assigned' : f'.assign? ts' ws = some g') :
    (∀ id ∈ ts.map Temp.id, g'.regs[id.toNat]? = g.regs[id.toNat]?) ∧
      ∀ id ∉ ts.map Temp.id, g.regs[id.toNat]? = f.regs[id.toNat]? ∧
        g'.regs[id.toNat]? = f'.regs[id.toNat]? := by
  induction ts generalizing ts' ws f f' with
  | nil =>
    obtain rfl : ts' = [] := List.map_eq_nil_iff.mp ids
    cases assigned
    cases assigned'
    exact ⟨nofun, fun _ _ => ⟨rfl, rfl⟩⟩
  | cons t ts ih =>
    cases ts' with
    | nil => cases ids
    | cons t' ts' =>
      cases ws with
      | nil => cases count
      | cons w ws =>
        obtain ⟨id, ids⟩ := List.cons.inj ids
        obtain ⟨mid, written, others⟩ := Option.bind_eq_some_iff.mp assigned
        obtain ⟨mid', written', others'⟩ := Option.bind_eq_some_iff.mp assigned'
        obtain ⟨room, rfl⟩ := Frame.writePut written
        obtain ⟨room', rfl⟩ := Frame.writePut written'
        obtain ⟨same, kept⟩ := ih ids (Nat.succ.inj count) others others'
        rw [id] at room' kept
        refine ⟨fun k member => ?_, fun k outside => ?_⟩
        · by_cases later : k ∈ ts.map Temp.id
          · exact same k later
          · obtain rfl := (List.mem_cons.mp member).resolve_right later
            obtain ⟨own, own'⟩ := kept t.id later
            rw [own, own', Frame.putSame room, Frame.putSame room']
        · obtain ⟨other, later⟩ := List.ne_and_not_mem_of_not_mem_cons outside
          obtain ⟨own, own'⟩ := kept k later
          rw [own, own', Frame.putOther f other, Frame.putOther f' other]
          exact ⟨rfl, rfl⟩

theorem mappedIds (site : Site) (b : Block) :
    (mappedParams site b).map Temp.id = b.params.map Temp.id := by
  rw [mappedParams, List.map_map]
  rfl

theorem loweredNamed {k : Setting} {bs bs' : List Block} (lowered : LoweredBlocks k bs bs')
    {label : String} {b : Block} (found : bs.find? (fun b => b.label = label) = some b) :
    ∃ code, bs'.find? (fun b => b.label = label) = some ⟨b.label, mappedParams k.site b, code⟩ ∧
      Segments k b.instrs code := by
  induction lowered with
  | nil => cases found
  | @cons first code rest converted head tail ih =>
    by_cases own : first.label = label
    · rw [List.find?_cons_of_pos (by simpa using own)] at found
      obtain rfl := Option.some.inj found
      exact ⟨code, List.find?_cons_of_pos (by simpa using own), head⟩
    · rw [List.find?_cons_of_neg (by simpa using own)] at found
      rw [List.find?_cons_of_neg (by simpa using own)]
      exact ih found

section Mirrors

variable {p p' : Program} {i : Instr} {after code : List Instr}

theorem Mirrors.sound (mirrors : Mirrors c p p' fn f f') (runnable : p.Runnable) :
    fn.violation? p = none := WellFormed.noViolation runnable.wellFormed mirrors.source

theorem Mirrors.once (mirrors : Mirrors c p p' fn f f') (runnable : p.Runnable) :
    fn.DefinesOnce := WellFormed.definesOnce (mirrors.sound runnable)

theorem Mirrors.within (mirrors : Mirrors c p p' fn f f') (rest : f.rest = i :: after) :
    ∃ b ∈ fn.blocks, i ∈ b.instrs := by
  obtain ⟨trail, path⟩ := mirrors.path
  obtain ⟨b, block, inside⟩ := Function.pathWithin path
  exact ⟨b, block, inside.subset (rest ▸ List.mem_cons_self)⟩

theorem Mirrors.onward (mirrors : Mirrors c p p' fn f f') (runnable : p.Runnable)
    (dominated : fn.UsesDominated) (rest : f.rest = i :: g.rest) (plain : i.isTerminator = false)
    (other : sameNumberCast i.op = false)
    (segments : Segments (setting c p p'.externs fn f'.fn) g.rest g'.rest)
    (same : { g with regs := #[], rest := [] } = { f with regs := #[], rest := [] })
    (same' : { g' with regs := #[], rest := [] } = { f' with regs := #[], rest := [] })
    (defined : ∀ id ∈ i.resultIds, g'.regs[id.toNat]? = g.regs[id.toNat]?)
    (kept : ∀ id ∉ i.resultIds, g.regs[id.toNat]? = f.regs[id.toNat]?)
    (kept' : ∀ id ∉ i.resultIds, (∃ t ∈ fn.temps, t.id = id) →
      g'.regs[id.toNat]? = f'.regs[id.toNat]?) : Mirrors c p p' fn g g' := by
  obtain ⟨gfn, glabel, grest, gregs, gfirst⟩ := g
  obtain ⟨gfn', glabel', grest', gregs', gfirst'⟩ := g'
  simp only [Frame.mk.injEq, true_and] at same same'
  obtain ⟨rfl, rfl, rfl⟩ := same
  obtain ⟨rfl, rfl, rfl⟩ := same'
  obtain ⟨b, block, instr⟩ := mirrors.within rest
  obtain ⟨trail, path⟩ := mirrors.path
  have agrees := mirrors.agrees
  rw [rest] at path agrees
  have once := mirrors.once runnable
  have edge : fn.Edge (i :: grest) i.resultIds grest := .next plain
  have uncast (id : TempId) (member : id ∈ i.resultIds) : ¬ IsCast fn id := by
    obtain ⟨t, result, rfl⟩ := List.mem_map.mp member
    exact resultNoCast once block instr result other
  exact ⟨mirrors.source, mirrors.made, mirrors.slotted, mirrors.label, mirrors.firstBuffer,
    ⟨_, .move path edge⟩, segments,
    agrees.advance dominated once ⟨p, mirrors.sound runnable⟩ path edge uncast defined kept kept'⟩

theorem Mirrors.cast {v : Value} {r : TempId} (mirrors : Mirrors c p p' fn f f')
    (runnable : p.Runnable) (dominated : fn.UsesDominated) (rest : f.rest = i :: g.rest)
    (cast : sameNumberCast i.op = true) (operands : i.operands = [v]) (result : i.resultIds = [r])
    (segments : Segments (setting c p p'.externs fn f'.fn) g.rest f'.rest)
    (same : { g with regs := #[], rest := [] } = { f with regs := #[], rest := [] })
    (copied : g.regs[r.toNat]? = f.value? .encoded v)
    (kept : ∀ id ≠ r, g.regs[id.toNat]? = f.regs[id.toNat]?) : Mirrors c p p' fn g f' := by
  obtain ⟨gfn, glabel, grest, gregs, gfirst⟩ := g
  simp only [Frame.mk.injEq, true_and] at same
  obtain ⟨rfl, rfl, rfl⟩ := same
  obtain ⟨b, block, instr⟩ := mirrors.within rest
  obtain ⟨trail, path⟩ := mirrors.path
  have agrees := mirrors.agrees
  rw [rest] at path agrees
  have plain : i.isTerminator = false := by
    revert cast
    rw [Instr.isTerminator]
    cases i.op <;> simp [sameNumberCast, Opcode.isTerminator]
  have edge : fn.Edge (i :: grest) [r] grest := result ▸ .next plain
  have casts : Casts fn r v := ⟨b, block, i, instr, cast, operands, result⟩
  have live (id : TempId) (is : v = .temp id) : fn.Dominates id (i :: grest) :=
    usedLive dominated (.inl (by rw [operands, is]; exact List.mem_cons_self))
  exact ⟨mirrors.source, mirrors.made, mirrors.slotted, mirrors.label, mirrors.firstBuffer,
    ⟨_, .move path edge⟩, segments,
    agrees.cast (mirrors.once runnable) edge casts live copied kept⟩

theorem Mirrors.jump {label : String} {b : Block} {words : List Word}
    (mirrors : Mirrors c p p' fn f f') (runnable : p.Runnable) (dominated : fn.UsesDominated)
    (rest : f.rest = i :: after) (branch : i.op = .br ∨ i.op = .cbr) (target : label ∈ i.labels)
    (named : fn.blockNamed? label = some b)
    (segments : Segments (setting c p p'.externs fn f'.fn) b.instrs code)
    (count : words.length = b.params.length)
    (assigned : { f with label := b.label, rest := b.instrs }.assign? b.params words = some g)
    (assigned' : { f' with label := b.label, rest := code }.assign?
      (mappedParams ((pass c).site p fn) b) words = some g') : Mirrors c p p' fn g g' := by
  obtain ⟨trail, path⟩ := mirrors.path
  have agrees := mirrors.agrees
  rw [rest] at path agrees
  have once := mirrors.once runnable
  have block := Function.blockNamedMem named
  obtain ⟨defined, kept⟩ := assignedAlike (mappedIds _ b) count assigned assigned'
  have edge : fn.Edge (i :: after) b.paramIds b.instrs := .jump branch target named
  have uncast (id : TempId) (member : id ∈ b.paramIds) : ¬ IsCast fn id := by
    obtain ⟨t, param, rfl⟩ := List.mem_map.mp member
    exact paramNoCast once block param
  have next : Agrees c fn b.instrs g g' :=
    agrees.advance dominated once ⟨p, mirrors.sound runnable⟩ path edge uncast defined
      (fun id outside => (kept id outside).1) fun id outside _ => (kept id outside).2
  rw [Frame.assignShape assigned, Frame.assignShape assigned']
  exact ⟨mirrors.source, mirrors.made, mirrors.slotted, rfl, mirrors.firstBuffer,
    ⟨_, .move path edge⟩, segments, next⟩

theorem mirrorsEntered {fn' : Function} {entry : Block} {blocks : List Block} {args : List Word}
    {firstBuffer : Nat} (runnable : p.Runnable) (source : fn ∈ p.functions)
    (made : LoweredFunction c p p'.externs fn fn') (first : fn.blocks = entry :: blocks)
    (segments : Segments (setting c p p'.externs fn fn') entry.instrs code)
    (count : args.length = entry.params.length)
    (assigned : (⟨fn.withSlots fn'.slots, entry.label, entry.instrs,
      Frame.blankRegs (fn.withSlots fn'.slots), firstBuffer⟩ : Frame).assign? entry.params args =
        some f)
    (assigned' : (⟨fn', entry.label, code, Frame.blankRegs fn', firstBuffer⟩ : Frame).assign?
      (mappedParams ((pass c).site p fn) entry) args = some f') : Mirrors c p p' fn f f' := by
  have once := WellFormed.definesOnce (WellFormed.noViolation runnable.wellFormed source)
  obtain ⟨defined, -⟩ := assignedAlike (mappedIds _ entry) count assigned assigned'
  have agrees : Agrees c fn entry.instrs f f' := agreesEntered once first defined
  rw [Frame.assignShape assigned, Frame.assignShape assigned']
  exact ⟨source, made, rfl, rfl, rfl, ⟨_, .enter first⟩, segments, agrees⟩

end Mirrors

end Lowering
end FixedIL
