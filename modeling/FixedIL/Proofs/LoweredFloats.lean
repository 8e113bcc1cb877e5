import FixedIL.Proofs.LoweredCalls

/-!
Floats behind lowering. Signatures, parameters, literals and externs are free of them; types are
wherever code is written anew. Instructions that are copied keep the types they had.
-/
namespace FixedIL

def Instr.typesFloat (i : Instr) : Bool :=
  i.type.isFloat || i.results.any fun t => t.type.isFloat

structure Instr.LiteralFree (i : Instr) : Prop where
  operands : ∀ v ∈ i.operands, v.isFloat = false
  arguments : ∀ args ∈ i.branchArgs, ∀ v ∈ args, v.isFloat = false

namespace Lowering

open Emit PassM

def keepsFloat (i : Instr) : Bool :=
  match i.op with
  | .iconst => i.type.isFloat
  | op => (copied op || op = .stackaddr) && i.typesFloat

section Types

variable {c : Config} {p : Program} {e : Extern} {sig : Signature} {target : CallTarget}

theorem mappedFree (supported : c.format.isSupported = true) (t : Ty) :
    (mapTy c.format t).isFloat = false := by
  have storage : c.format.storage.isFloat = false := by
    revert supported
    cases c.format <;> decide
  unfold mapTy
  split
  · exact storage
  · simpa using ‹¬ t.isFloat = true›

theorem mentionsNone : sig.mentionsFloat = false ↔
    (∀ s ∈ sig.params, s.type.isFloat = false) ∧ ∀ s ∈ sig.returns, s.type.isFloat = false := by
  simp [Signature.mentionsFloat]

theorem mapTypesFree (supported : c.format.isSupported = true) (sig : Signature) :
    (sig.mapTypes (mapTy c.format)).mentionsFloat = false := by
  rw [mentionsNone]
  constructor <;> intro s member <;> obtain ⟨s, -, rfl⟩ := List.mem_map.mp member <;>
    exact mappedFree supported s.type

theorem plainSig {format : Fixed.Format} (free : sig.mentionsFloat = false) :
    sig.mapTypes (mapTy format) = sig := by
  obtain ⟨params, returns⟩ := mentionsNone.mp free
  have each (slots : List Slot) (free : ∀ s ∈ slots, s.type.isFloat = false) :
      slots.map (fun s => { s with type := mapTy format s.type }) = slots :=
    (List.map_congr_left fun s member => by simp [plainType (free s member)]).trans (List.map_id _)
  rw [Signature.mapTypes, each _ params, each _ returns]

theorem lanesFree {type : Builtin.ShaderTy} {t : Ty}
    (member : t ∈ Builtin.lanesOf .fixedPoint type) : t.isFloat = false := by
  rw [(List.mem_replicate.mp member).2]
  cases type <;> rfl

theorem flattenFree (prototype : Builtin.Prototype) :
    (prototype.flatten .fixedPoint).mentionsFloat = false := by
  rw [mentionsNone]
  constructor <;> intro s member <;> obtain ⟨t, lane, rfl⟩ := List.mem_map.mp member
  · obtain ⟨param, -, lane⟩ := List.mem_flatMap.mp lane
    unfold Builtin.Param.flatten at lane
    split at lane
    · exact lanesFree lane
    · rw [List.mem_singleton.mp lane]
      rfl
  · exact lanesFree lane

theorem legalFree {t : Target} {sig' : Signature} (free : sig.mentionsFloat = false)
    (legal : ReturnPlan.legalize sig t = .ok sig') : sig'.mentionsFloat = false := by
  obtain ⟨params, -⟩ := mentionsNone.mp free
  unfold ReturnPlan.legalize at legal
  cases classified : ReturnPlan.classify sig.returnTypes t with
  | error e =>
    rw [classified] at legal
    cases legal
  | ok plan =>
    simp only [classified, bind, Except.bind] at legal
    split at legal
    · cases legal
      exact mentionsNone.mpr ⟨List.forall_mem_cons.mpr ⟨rfl, params⟩, List.forall_mem_nil _⟩
    · cases legal
      exact free

theorem foreignFree (foreign : Foreign c p e) : e.sig.mentionsFloat = false := by
  cases foreign with
  | kept source floatFree => exact floatFree
  | builtin found fixed legal => exact legalFree (flattenFree _) legal

theorem returnTypesFree (free : sig.mentionsFloat = false) :
    ∀ t ∈ sig.returnTypes, t.isFloat = false := by
  intro t member
  obtain ⟨s, returned, rfl⟩ := List.mem_map.mp member
  exact (mentionsNone.mp free).2 s returned

theorem resolvedFree {f : Function} {callee : String} (supported : c.format.isSupported = true)
    (resolves : Resolves c ((pass c).site p f) callee target) :
    ∀ t ∈ target.plan.types, t.isFloat = false := by
  cases resolves with
  | function own =>
    obtain ⟨g, -, rfl⟩ := Option.map_eq_some_iff.mp own
    exact returnTypesFree (mapTypesFree supported g.sig)
  | @builtin hit m plan sig foreign found fixed classified legal =>
    change ∀ t ∈ plan.types, t.isFloat = false
    rw [classifiedTypes classified]
    exact returnTypesFree (flattenFree _)
  | outside foreign unknown declared floatFree => exact returnTypesFree floatFree

end Types

section Code

variable {c : Config} {p : Program} {f : Function} {σ ρ : Value → Value} {i j : Instr}
  {code : List Instr} {site : Site}

theorem loadingTypes {plan : ReturnPlan} {buffer : Value} {loc : Loc} {ids : List TempId}
    (free : ∀ t ∈ plan.types, t.isFloat = false) :
    ∀ j ∈ (plan.types.zip ids).zipIdx.map (loading plan buffer loc), j.typesFloat = false := by
  intro j member
  obtain ⟨⟨⟨type, id⟩, k⟩, among, rfl⟩ := List.mem_map.mp member
  have pair : (type, id) ∈ plan.types.zip ids := by
    rw [← List.zipIdx_map_fst 0 (plan.types.zip ids)]
    exact List.mem_map_of_mem among
  simp [Instr.typesFloat, loading, computing, free type (List.of_mem_zip pair).1]

theorem callCodeTypes {callee : String} {plan : ReturnPlan} {args : List Value}
    {ids : List TempId} {e : Emission} (free : ∀ t ∈ plan.types, t.isFloat = false) :
    ∀ j ∈ callCode callee plan args ids e, j.typesFloat = false := by
  have results : ∀ t ∈ tempsOf plan.types ids, t.type.isFloat = false := by
    intro t member
    obtain ⟨⟨type, id⟩, pair, rfl⟩ := List.mem_map.mp member
    exact free type (List.of_mem_zip pair).1
  have type (ts : List Temp) (free : ∀ t ∈ ts, t.type.isFloat = false) :
      (callType (ts.map Temp.type)).isFloat = false := by
    match ts with
    | [] => rfl
    | [t] => exact free t (List.mem_singleton_self t)
    | _ :: _ :: _ => rfl
  unfold callCode
  split
  · refine List.forall_mem_cons.mpr ⟨rfl, List.forall_mem_cons.mpr ⟨rfl, ?_⟩⟩
    exact loadingTypes free
  · refine List.forall_mem_cons.mpr ⟨?_, List.forall_mem_nil _⟩
    rw [Instr.typesFloat, Bool.or_eq_false_iff]
    exact ⟨type _ results, by simpa [calling] using results⟩

theorem rewrittenTypes (supported : c.format.isSupported = true)
    (rewritten : Rewritten ((pass c).site p f) σ i j) : j.typesFloat = keepsFloat i := by
  have mapped : (((pass c).site p f).encoding.mapTy i.type).isFloat = false :=
    mappedFree supported i.type
  cases rewritten with
  | intConst op => simp [Instr.typesFloat, keepsFloat, redefinition, op]
  | intLiteral op =>
    rw [keepsFloat, op]
    rfl
  | floatConst op | select op | load op | store op =>
    rw [keepsFloat, op]
    simp [Instr.typesFloat, redefinition, mapped, copied, Instr.blank]
  | stackaddr op => simp [Instr.typesFloat, keepsFloat, op]
  | copied op =>
    have other : i.op ≠ .iconst := fun is => by rw [is] at op; cases op
    simp [Instr.typesFloat, keepsFloat, op]

theorem rewrittenLiterals (plain : ∀ v, (σ v).isFloat = false) (rewritten : Rewritten site σ i j) :
    j.LiteralFree := by
  have operands : ∀ v ∈ i.operands.map σ, v.isFloat = false := fun v member => by
    obtain ⟨u, -, rfl⟩ := List.mem_map.mp member
    exact plain u
  have arguments : ∀ args ∈ i.branchArgs.map (·.map σ), ∀ v ∈ args, v.isFloat = false := by
    intro args branch v member
    obtain ⟨source, -, rfl⟩ := List.mem_map.mp branch
    obtain ⟨u, -, rfl⟩ := List.mem_map.mp member
    exact plain u
  cases rewritten with
  | @intConst v t n op single results literal =>
    have integer : v.isFloat = false := by
      cases v with
      | float x => cases literal
      | _ => rfl
    exact ⟨List.forall_mem_singleton.mpr integer, List.forall_mem_nil _⟩
  | floatConst | intLiteral => exact ⟨List.forall_mem_singleton.mpr rfl, List.forall_mem_nil _⟩
  | select | load | store => exact ⟨operands, List.forall_mem_nil _⟩
  | stackaddr =>
    exact ⟨List.forall_mem_cons.mpr ⟨rfl, fun v member => operands v (List.mem_of_mem_drop member)⟩,
      arguments⟩
  | copied => exact ⟨operands, arguments⟩

theorem callCodeLiterals {callee : String} {plan : ReturnPlan} {args : List Value}
    {ids : List TempId} {e : Emission} (free : ∀ v ∈ args, v.isFloat = false) :
    ∀ j ∈ callCode callee plan args ids e, j.LiteralFree := by
  unfold callCode
  split
  · refine List.forall_mem_cons.mpr ⟨⟨by simp [computing, Value.isFloat], List.forall_mem_nil _⟩,
      List.forall_mem_cons.mpr ⟨⟨List.forall_mem_cons.mpr ⟨rfl, free⟩, List.forall_mem_nil _⟩, ?_⟩⟩
    intro j member
    obtain ⟨p, -, rfl⟩ := List.mem_map.mp member
    exact ⟨by simp [loading, computing, Value.isFloat], List.forall_mem_nil _⟩
  · exact List.forall_mem_singleton.mpr ⟨free, List.forall_mem_nil _⟩

theorem givenLiterals (plain : ∀ v, (σ v).isFloat = false) {v : Value} (given : Given σ i v) :
    v.isFloat = false := by
  rcases given with temp | ⟨n, rfl⟩ | ⟨u, -, rfl⟩
  · cases v with
    | float x => cases temp
    | _ => rfl
  · rfl
  · exact plain u

theorem leavesLiterals (plain : ∀ v, (σ v).isFloat = false) (leaves : Leaves c site σ i code) :
    ∀ j ∈ code, j.LiteralFree := by
  cases leaves with
  | one rewritten =>
    obtain ⟨operands, arguments⟩ := rewrittenLiterals plain rewritten
    exact List.forall_mem_singleton.mpr ⟨operands, arguments⟩
  | sequence results sequenced length integer reads =>
    intro j member
    have own := integer j member
    exact ⟨fun v operand => givenLiterals plain (own.operands v operand),
      own.alone ▸ List.forall_mem_nil _⟩
  | nothing => exact List.forall_mem_nil _
  | call op resolves args results =>
    refine callCodeLiterals fun v member => ?_
    obtain ⟨u, -, rfl⟩ := List.mem_map.mp member
    exact plain u

theorem integerTypes {ok : Value → Prop} (integer : IntegerCode ok j) : j.typesFloat = false := by
  obtain ⟨id, result⟩ := integer.result
  have free : j.type.isFloat = false := by
    have whole := integer.type
    revert whole
    cases j.type <;> simp [Ty.isInteger, Ty.isFloat]
  simp [Instr.typesFloat, result, free]

theorem sequencedMapped {q : TempId → Emit Value} (sequenced : Sequenced site σ i q) :
    keepsFloat i = false := by
  cases sequenced with
  | arith is | compare is | ofInt is | toInt is => rw [keepsFloat, is]; rfl

theorem leavesTypes (supported : c.format.isSupported = true)
    (leaves : Leaves c ((pass c).site p f) σ i code) :
    (∃ j ∈ code, j.typesFloat = true) ↔ keepsFloat i = true := by
  have none (free : ∀ j ∈ code, j.typesFloat = false) (mapped : keepsFloat i = false) :
      (∃ j ∈ code, j.typesFloat = true) ↔ keepsFloat i = true := by
    refine iff_of_false ?_ (by simp [mapped])
    rintro ⟨j, member, float⟩
    rw [free j member] at float
    cases float
  cases leaves with
  | one rewritten =>
    rw [← rewrittenTypes supported rewritten]
    simp [Instr.typesFloat]
  | sequence results sequenced length integer reads =>
    exact none (fun j member => integerTypes (integer j member)) (sequencedMapped sequenced)
  | nothing cast =>
    refine none (List.forall_mem_nil _) ?_
    revert cast
    unfold keepsFloat
    cases i.op <;> simp [sameNumberCast, copied]
  | call op resolves args results =>
    exact none (callCodeTypes (resolvedFree supported resolves)) (by rw [keepsFloat, op]; rfl)

end Code

section Names

variable {c : Config} {p : Program} {f : Function} {s : PassState} {ρ : Value → Value} {i j : Instr}

theorem becomesPlain {v w : Value} (becomes : Becomes ((pass c).site p f) v w) :
    w.isFloat = false := by
  obtain ⟨u, -, rfl⟩ := becomes
  cases u <;> rfl

theorem operandPlain (entered : Entered ((pass c).site p f) s) (v : Value) :
    (s.operand ((pass c).site p f).encoding v).isFloat = false :=
  becomesPlain (operandBecomes entered v)

theorem resolvePlain (entered : Entered ((pass c).site p f) s) (hops : Nat) {v : Value}
    (plain : v.isFloat = false) :
    (Pass.resolve s ((pass c).site p f).encoding hops v).isFloat = false := by
  cases v with
  | temp id =>
    have itself : Becomes ((pass c).site p f) (.temp id) (.temp id) := ⟨.temp id, .here _, rfl⟩
    exact becomesPlain (resolveBecomes (fun _ => rfl) entered hops itself)
  | _ =>
    rw [resolveLiteral hops rfl]
    exact plain

theorem renamedLiterals (keeps : ∀ v, v.isFloat = false → (ρ v).isFloat = false)
    (free : j.LiteralFree) : (j.rename ρ).LiteralFree := by
  constructor
  · intro v member
    obtain ⟨u, operand, rfl⟩ := List.mem_map.mp member
    exact keeps u (free.operands u operand)
  · intro args branch v member
    obtain ⟨source, old, rfl⟩ := List.mem_map.mp branch
    obtain ⟨u, argument, rfl⟩ := List.mem_map.mp member
    exact keeps u (free.arguments source old u argument)

end Names

section Programs

variable {c : Config} {p p' : Program} {f f' : Function}

structure KeepsFloats (f f' : Function) : Prop where
  sig : f'.sig.mentionsFloat = false
  params : ∀ b ∈ f'.blocks, ∀ t ∈ b.params, t.type.isFloat = false
  literals : ∀ j ∈ f'.code, j.LiteralFree
  types : (∃ j ∈ f'.code, j.typesFloat = true) ↔ ∃ i ∈ f.code, keepsFloat i = true

theorem wroteTypes {is : List Instr} {codes : List (List Instr)}
    (supported : c.format.isSupported = true)
    (wrote : List.Forall₂ (Wrote c ((pass c).site p f)) is codes) :
    (∃ j ∈ codes.flatten, j.typesFloat = true) ↔ ∃ i ∈ is, keepsFloat i = true := by
  induction wrote with
  | nil => simp
  | cons head tail ih =>
    obtain ⟨s, -, leaves⟩ := head
    simp only [List.flatten_cons, List.mem_append, List.mem_cons, or_and_right, exists_or,
      exists_eq_left, ih, leavesTypes supported leaves]

theorem wroteLiterals {is : List Instr} {codes : List (List Instr)}
    (wrote : List.Forall₂ (Wrote c ((pass c).site p f)) is codes) :
    ∀ j ∈ codes.flatten, j.LiteralFree := by
  intro j member
  obtain ⟨code, among, here⟩ := List.mem_flatten.mp member
  obtain ⟨i, -, s, entered, leaves⟩ := partner wrote.flip among
  exact leavesLiterals (operandPlain entered) leaves j here

theorem functionKeeps (supported : c.format.isSupported = true) (made : FunctionCode c p f f') :
    KeepsFloats f f' := by
  obtain ⟨s, codes, entered, wrote, written⟩ := made.code
  refine ⟨?_, fun b block t param => ?_, fun j member => ?_, ?_⟩
  · rw [made.sig]
    cases own : ((pass c).site p f).signature? f.name with
    | none => rfl
    | some sig =>
      obtain ⟨g, -, rfl⟩ := Option.map_eq_some_iff.mp own
      exact mapTypesFree supported g.sig
  · have mapped : b.params ∈ f.blocks.map (mappedParams ((pass c).site p f)) :=
      made.params ▸ List.mem_map_of_mem block
    obtain ⟨source, -, same⟩ := List.mem_map.mp mapped
    rw [← same] at param
    obtain ⟨u, -, rfl⟩ := List.mem_map.mp param
    exact mappedFree supported u.type
  · rw [written] at member
    obtain ⟨j, old, rfl⟩ := List.mem_map.mp member
    exact renamedLiterals (fun v => resolvePlain entered _) (wroteLiterals wrote j old)
  · rw [written, ← wroteTypes supported wrote]
    simp only [List.mem_map, exists_exists_and_eq_and]
    rfl

/-- Lowering leaves no float in signatures, parameters, literals and externs. A float type is left
in a function exactly if an integer constant or a copied instruction has one. -/
theorem loweredFloats (run : (pass c).run p = .ok p') :
    (∀ e ∈ p'.externs, e.sig.mentionsFloat = false) ∧
      List.Forall₂ KeepsFloats p.functions p'.functions := by
  obtain ⟨supported, trace⟩ := runTrace run
  have foreign : ∀ e ∈ p'.externs, Foreign c p e :=
    declaresForeign (functionsDeclare trace) keptForeign
  exact ⟨fun e member => foreignFree (foreign e member),
    (functionsCode trace).imp fun _ _ => functionKeeps supported⟩

section Zero

def zeroSource : Function where
  name := "zero"
  sig := .ofTypes [] [.f32]
  blocks := [⟨"entry", [], [
    { Instr.blank .iconst with type := .f32, results := [⟨0, .f32⟩], operands := [.int 0] },
    { Instr.blank .ret with operands := [.temp 0] }]⟩]
  slots := []
  valueNames := []

def zeroTarget : Function := { zeroSource with sig := .ofTypes [] [.i32] }

theorem zeroKeepsFloat : Program.WellFormed ⟨[], [zeroSource]⟩ ∧
    (pass squareConfig).run ⟨[], [zeroSource]⟩ = .ok ⟨[], [zeroTarget]⟩ ∧
    ∃ j ∈ zeroTarget.code, j.typesFloat = true := by
  have run : (pass squareConfig).run ⟨[], [zeroSource]⟩ = .ok ⟨[], [zeroTarget]⟩ :=
    okOfOption (by decide +kernel)
  obtain ⟨-, functions⟩ := loweredFloats run
  obtain ⟨keeps, -⟩ := List.forall₂_cons.mp functions
  exact ⟨by decide +kernel, run, keeps.types.mpr ⟨_, List.mem_cons_self, rfl⟩⟩

end Zero

end Programs

end Lowering
end FixedIL
