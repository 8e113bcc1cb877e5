import FixedIL.Proofs.Checks
import FixedIL.Proofs.InstrCode

/-!
Calls behind lowering. Each call of the source leaves one call, by the name and with the counts of
what its callee was resolved to. A builtin is resolved to an extern that is added only if no
extern has its name, and no function hides it; so the declaration that stands under the name may
be another one.
-/
namespace FixedIL

structure Signature.SameCounts (s t : Signature) : Prop where
  params : s.params.length = t.params.length
  returns : s.returns.length = t.returns.length

structure Instr.Agrees (j : Instr) (sig : Signature) : Prop where
  operands : j.operands.length = sig.params.length
  results : j.results.length = sig.returns.length

namespace Lowering

open Emit

def meaning? (c : Config) (p : Program) (name : String) : Option Signature :=
  match p.functionNamed? name with
  | some f => some (f.sig.mapTypes (mapTy c.format))
  | none =>
    ((p.externs.filter (fun e => !e.sig.mentionsFloat) ++ neededBy c p p.code).find?
      (fun e => e.name = name)).map Extern.sig

structure Called (c : Config) (p : Program) (i : Instr) (target : CallTarget) (j : Instr) :
    Prop where
  resolves : ∃ f, Resolves c ((pass c).site p f) i.callee target
  callee : j.callee = target.symbol
  agrees : j.Agrees target.sig

section Externs

variable {externs es : List Extern} {name : String}

theorem addedFind (externs : List Extern) (e : Extern) (name : String) :
    (addExtern externs e).find? (fun e => e.name = name) =
      (externs ++ [e]).find? fun e => e.name = name := by
  unfold addExtern
  split
  · rename_i present
    obtain ⟨other, member, same⟩ := List.any_eq_true.mp present
    rw [List.find?_append]
    cases found : externs.find? fun e => e.name = name with
    | some first => rfl
    | none =>
      have different : ¬ e.name = name := fun is => by
        have none := List.find?_eq_none.mp found other member
        exact none (decide_eq_true ((of_decide_eq_true same).trans is))
      simp [different]
  · rfl

theorem allAddedFind (externs es : List Extern) (name : String) :
    (es.foldl addExtern externs).find? (fun e => e.name = name) =
      (externs ++ es).find? fun e => e.name = name := by
  induction es generalizing externs with
  | nil => rw [List.append_nil]; rfl
  | cons e rest ih =>
    rw [List.foldl_cons, ih, List.find?_append, addedFind, ← List.find?_append, List.append_assoc]
    rfl

theorem allAddedNames : name ∈ (es.foldl addExtern externs).map Extern.name ↔
    name ∈ externs.map Extern.name ∨ name ∈ es.map Extern.name := by
  have named (l : List Extern) :
      name ∈ l.map Extern.name ↔ (l.find? fun e => e.name = name).isSome := by
    simp
  rw [named, allAddedFind, ← named, List.map_append, List.mem_append]

theorem addedOnce {e : Extern} (once : (externs.map Extern.name).Nodup) :
    ((addExtern externs e).map Extern.name).Nodup := by
  unfold addExtern
  split
  · exact once
  · rename_i absent
    rw [List.map_append, List.nodup_append]
    refine ⟨once, List.nodup_singleton _, fun name old other new same => absent ?_⟩
    obtain ⟨first, member, rfl⟩ := List.mem_map.mp old
    rw [List.map_singleton, List.mem_singleton] at new
    exact List.any_eq_true.mpr ⟨first, member, decide_eq_true (same.trans new)⟩

theorem allAddedOnce (once : (externs.map Extern.name).Nodup) :
    ((es.foldl addExtern externs).map Extern.name).Nodup := by
  induction es generalizing externs with
  | nil => exact once
  | cons e rest ih => exact ih (addedOnce once)

end Externs

section Calls

variable {c : Config} {p p' : Program} {site : Site} {σ ρ : Value → Value} {i j : Instr}
  {callee : String} {target : CallTarget} {code : List Instr}

theorem classifiedTypes {types : List Ty} {t : Target} {plan : ReturnPlan}
    (classified : ReturnPlan.classify types t = .ok plan) : plan.types = types := by
  unfold ReturnPlan.classify at classified
  split at classified
  · cases classified
    rfl
  · split at classified
    · cases classified
    · split at classified
      · cases classified
      · cases classified
        rfl

theorem resolvedCounts (resolves : Resolves c site callee target) :
    target.sig.returns.length = (if target.plan.usesBuffer then 0 else target.plan.types.length) ∧
      (target.plan.usesBuffer = true → 0 < target.sig.params.length) := by
  cases resolves with
  | function | outside => simp [ReturnPlan.direct, ReturnPlan.usesBuffer, Signature.returnTypes]
  | builtin foreign found fixed classified legal =>
    simp only [ReturnPlan.legalize, classified, bind, Except.bind] at legal
    split at legal
    · rename_i buffer
      cases legal
      simp [buffer]
    · rename_i registers
      cases legal
      simp [registers, classifiedTypes classified, Signature.returnTypes]

theorem rewrittenPlain (rewritten : Rewritten site σ i j) : i.op ≠ .call ∧ j.op ≠ .call := by
  cases rewritten with
  | copied op =>
    have plain := copiedPlain op
    exact ⟨plain, plain⟩
  | stackaddr op => simp [op]
  | intConst op | floatConst op | intLiteral op | select op | load op | store op =>
    exact ⟨by rw [op]; nofun, nofun⟩

theorem sequencedPlain {q : TempId → Emit Value} (sequenced : Sequenced site σ i q) :
    i.op ≠ .call := by
  cases sequenced with
  | arith is | compare is | ofInt is | toInt is => rw [is]; nofun

theorem callCodeCalls (plan : ReturnPlan) (args : List Value) (ids : List TempId)
    (e : Emission) : callsOf (callCode callee plan args ids e) =
      [if plan.usesBuffer then calling callee [] (.temp e.nextTemp :: args) e.loc
        else calling callee (tempsOf plan.types ids) args e.loc] := by
  have loads (buffer : Value) (ps : List ((Ty × TempId) × Nat)) :
      callsOf (ps.map (loading plan buffer e.loc)) = [] := by
    refine List.filter_eq_nil_iff.mpr fun j member => ?_
    obtain ⟨p, -, rfl⟩ := List.mem_map.mp member
    simp [loading, computing, Instr.blank]
  unfold callCode
  split
  · have rest := loads (.temp e.nextTemp) (plan.types.zip ids).zipIdx
    simp only [callsOf] at rest ⊢
    simp [rest, computing, calling, Instr.blank]
  · rfl

theorem leavesCalls {f : Function} (leaves : Leaves c ((pass c).site p f) σ i code) :
    List.Forall₂ (fun i j => ∃ target, Called c p i target j) (callsOf [i]) (callsOf code) := by
  have nothing (plain : i.op ≠ .call) (calls : callsOf code = []) :
      List.Forall₂ (fun i j => ∃ target, Called c p i target j) (callsOf [i]) (callsOf code) := by
    rw [calls, callsOf, List.filter_cons_of_neg (by simpa using plain)]
    exact .nil
  cases leaves with
  | one rewritten =>
    obtain ⟨plain, plain'⟩ := rewrittenPlain rewritten
    exact nothing plain (by simp [callsOf, plain'])
  | sequence results sequenced length integer reads =>
    refine nothing (sequencedPlain sequenced) (List.filter_eq_nil_iff.mpr fun j member is => ?_)
    have integral := (integer j member).op
    rw [of_decide_eq_true is] at integral
    cases integral
  | nothing cast => exact nothing (fun call => by rw [call] at cast; cases cast) rfl
  | @call target e op resolves args results =>
    obtain ⟨returns, hidden⟩ := resolvedCounts resolves
    rw [callCodeCalls, callsOf, List.filter_cons_of_pos (by simpa using op)]
    refine .cons ⟨target, ⟨f, resolves⟩, ?_, ?_⟩ .nil
    · split <;> rfl
    · split
      · rename_i buffer
        simp only [buffer, if_true] at args returns
        have positive := hidden buffer
        refine ⟨?_, returns.symm⟩
        simp only [calling, List.length_cons, List.length_map, args]
        omega
      · rename_i registers
        simp only [registers, Bool.false_eq_true, if_false] at args returns
        refine ⟨by simp [calling, args], ?_⟩
        rw [returns]
        simp [calling, tempsOf, results]

theorem callsAppend (code code' : List Instr) :
    callsOf (code ++ code') = callsOf code ++ callsOf code' := List.filter_append ..

theorem calledRenamed (called : Called c p i target j) : Called c p i target (j.rename ρ) :=
  ⟨called.resolves, called.callee, (List.length_map _).trans called.agrees.operands,
    called.agrees.results⟩

theorem renamedCalls {is : List Instr}
    (calls : List.Forall₂ (fun i j => ∃ target, Called c p i target j) is (callsOf code)) :
    List.Forall₂ (fun i j => ∃ target, Called c p i target j) is
      (callsOf (code.map (Instr.rename ρ))) := by
  have same : callsOf (code.map (Instr.rename ρ)) = (callsOf code).map (Instr.rename ρ) :=
    List.filter_map
  rw [same]
  exact List.forall₂_map_right_iff.mpr
    (calls.imp fun _ _ ⟨target, called⟩ => ⟨target, calledRenamed called⟩)

end Calls

section Programs

variable {c : Config} {p p' : Program} {f f' : Function} {fs fs' : List Function}

theorem wroteCalls {is : List Instr} {codes : List (List Instr)}
    (wrote : List.Forall₂ (Wrote c ((pass c).site p f)) is codes) :
    List.Forall₂ (fun i j => ∃ target, Called c p i target j) (callsOf is)
      (callsOf codes.flatten) := by
  induction wrote with
  | nil => exact .nil
  | @cons i code is codes head tail ih =>
    obtain ⟨s, -, leaves⟩ := head
    rw [List.flatten_cons, callsAppend, ← List.singleton_append, callsAppend]
    exact List.rel_append (leavesCalls leaves) ih

theorem functionsCall (made : List.Forall₂ (FunctionCode c p) fs fs') :
    List.Forall₂ (fun i j => ∃ target, Called c p i target j)
      (callsOf (fs.flatMap Function.code)) (callsOf (fs'.flatMap Function.code)) := by
  induction made with
  | nil => exact .nil
  | cons head tail ih =>
    obtain ⟨s, codes, -, wrote, written⟩ := head.code
    rw [List.flatMap_cons, List.flatMap_cons, callsAppend, callsAppend, written]
    exact List.rel_append (renamedCalls (wroteCalls wrote)) ih

theorem functionsMean (made : List.Forall₂ (FunctionCode c p) fs fs') (name : String) :
    (fs'.find? fun f => f.name = name).map Function.sig =
      (fs.find? fun f => f.name = name).map
        fun f => (((pass c).site p f).signature? f.name).getD default := by
  induction made with
  | nil => rfl
  | @cons f f' fs fs' head tail ih =>
    rw [List.find?_cons, List.find?_cons, head.name]
    split
    · exact congrArg some head.sig
    · exact ih

theorem functionMeaning (run : (pass c).run p = .ok p') (name : String) :
    (p'.functionNamed? name).map Function.sig =
      (p.functionNamed? name).map fun f => f.sig.mapTypes (mapTy c.format) := by
  have named := functionsMean (functionsCode (runTrace run).2) name
  refine named.trans ?_
  cases found : p.functions.find? fun f => f.name = name with
  | none => simp [Program.functionNamed?, found]
  | some f =>
    have is : f.name = name := by simpa using List.find?_some found
    have sig : ((pass c).site p f).signature? f.name = some (f.sig.mapTypes (mapTy c.format)) := by
      rw [is]
      exact congrArg (Option.map _) found
    simp [Program.functionNamed?, found, sig]

theorem externMeaning (run : (pass c).run p = .ok p') (name : String) :
    p'.externNamed? name =
      (p.externs.filter (fun e => !e.sig.mentionsFloat) ++ neededBy c p p.code).find?
        fun e => e.name = name := by
  rw [Program.externNamed?, functionsNeed (runTrace run).2, allAddedFind]
  rfl

theorem hidden (run : (pass c).run p = .ok p') (name : String) :
    p'.functionNamed? name = none ↔ p.functionNamed? name = none := by
  rw [← Option.map_eq_none_iff, functionMeaning run, Option.map_eq_none_iff]

theorem loweredMeaning (run : (pass c).run p = .ok p') (name : String) :
    p'.calleeSig? name = meaning? c p name := by
  have sigs := functionMeaning run name
  unfold Program.calleeSig? meaning?
  cases before : p.functionNamed? name with
  | none =>
    rw [(hidden run name).mpr before, externMeaning run]
  | some f =>
    rw [before] at sigs
    obtain ⟨f', found, sig⟩ := Option.map_eq_some_iff.mp sigs
    rw [found]
    exact congrArg some sig

theorem keptFind {callee : String} {e : Extern} (declared : p.externNamed? callee = some e)
    (floatFree : e.sig.mentionsFloat = false) :
    (p.externs.filter fun e => !e.sig.mentionsFloat).find? (fun e => e.name = callee) = some e := by
  obtain ⟨same, before, after, split, others⟩ := List.find?_eq_some_iff_append.mp declared
  have none : (before.filter fun e => !e.sig.mentionsFloat).find?
      (fun e => e.name = callee) = none :=
    List.find?_eq_none.mpr fun other member => by
      simpa using others other (List.mem_of_mem_filter member)
  rw [split, List.filter_append, List.filter_cons_of_pos (by simp [floatFree]),
    List.find?_append, none, Option.none_or, List.find?_cons, same]

theorem resolvesMeans {callee : String} {target : CallTarget}
    (resolves : Resolves c ((pass c).site p f) callee target) :
    (redirect? c p callee = none ∧ target.symbol = callee ∧
      meaning? c p callee = some target.sig) ∨
      redirect? c p callee = some ⟨target.symbol, target.sig⟩ := by
  cases resolves with
  | @function sig own =>
    obtain ⟨g, named, rfl⟩ := Option.map_eq_some_iff.mp own
    have known : p.functionNamed? callee = some g := named
    refine .inl ⟨ownRedirect (by rw [known]; rfl), rfl, ?_⟩
    rw [meaning?, known]
    rfl
  | @builtin hit m plan sig foreign found fixed classified legal =>
    have none : p.functionNamed? callee = none := foreignSignature.mp foreign
    exact .inr (redirectIff.mpr ⟨none, hit, m, sig, found, fixed, legal, rfl⟩)
  | @outside e foreign unknown declared floatFree =>
    refine .inl ⟨unknownRedirect unknown, rfl, ?_⟩
    have none : p.functionNamed? callee = none := foreignSignature.mp foreign
    have known : p.externNamed? callee = some e := declared
    rw [meaning?, none, List.find?_append, keptFind known floatFree]
    rfl

theorem neededMeans {e : Extern} (needed : e ∈ neededBy c p p.code) :
    ∃ sig, meaning? c p e.name = some sig := by
  unfold meaning?
  split
  · exact ⟨_, rfl⟩
  · have present : ((p.externs.filter (fun e => !e.sig.mentionsFloat) ++
        neededBy c p p.code).find? (fun f => f.name = e.name)).isSome :=
      List.find?_isSome.mpr ⟨e, List.mem_append_right _ needed, decide_eq_true rfl⟩
    obtain ⟨first, found⟩ := Option.isSome_iff_exists.mp present
    exact ⟨first.sig, by rw [found]; rfl⟩

theorem neededCall {i : Instr} {code : List Instr} {e : Extern} (member : i ∈ callsOf code)
    (redirected : redirect? c p i.callee = some e) : e ∈ neededBy c p code :=
  List.mem_filterMap.mpr ⟨i, member, redirected⟩

theorem runCalls (run : (pass c).run p = .ok p') :
    List.Forall₂ (fun i j => i ∈ callsOf p.code ∧ ∃ target, Called c p i target j)
      (callsOf p.code) (callsOf p'.code) :=
  List.forall₂_and_left _ _ |>.mpr ⟨fun _ member => member,
    functionsCall (functionsCode (runTrace run).2)⟩

/-- The callee of a call exists behind lowering. The call agrees with its declaration exactly if
the source has no declaration with other counts under the name of the extern that it needs. -/
theorem loweredCallsAgree (run : (pass c).run p = .ok p') :
    List.Forall₂ (fun i j => ∃ sig, p'.calleeSig? j.callee = some sig ∧
      (j.Agrees sig ↔ ∀ e, redirect? c p i.callee = some e →
        ∃ standing, meaning? c p e.name = some standing ∧ standing.SameCounts e.sig))
      (callsOf p.code) (callsOf p'.code) := by
  refine (runCalls run).imp fun i j ⟨member, target, called⟩ => ?_
  obtain ⟨f, resolves⟩ := called.resolves
  rw [loweredMeaning run, called.callee]
  rcases resolvesMeans resolves with ⟨none, same, means⟩ | redirected
  · refine ⟨target.sig, same ▸ means, iff_of_true called.agrees fun e some => ?_⟩
    rw [none] at some
    cases some
  · obtain ⟨sig, stands⟩ : ∃ sig, meaning? c p target.symbol = some sig :=
      neededMeans (neededCall member redirected)
    refine ⟨sig, stands, fun agrees e some => ?_, fun alike => ?_⟩
    · rw [redirected] at some
      cases some
      exact ⟨sig, stands, agrees.operands.symm.trans called.agrees.operands,
        agrees.results.symm.trans called.agrees.results⟩
    · obtain ⟨standing, found, params, returns⟩ := alike _ redirected
      rw [stands] at found
      cases found
      exact ⟨called.agrees.operands.trans params.symm, called.agrees.results.trans returns.symm⟩

section Tint

def hueBuiltins : List Builtin.Implementation :=
  let prototype : Builtin.Prototype := ⟨"hue2rgb", .vec3, [⟨"hue", .float, .input⟩]⟩
  [⟨prototype, some .float, "hue2rgb_f32", "", none⟩,
    ⟨prototype, some .fixedPoint, "hue2rgb_q32", "", none⟩]

def tintConfig : Config :=
  ⟨(Builtin.Registry.create hueBuiltins).toOption.getD .empty, .riscv32Ilp32, .fixed16x16⟩

def tintCall : Instr :=
  { Instr.blank .call with
    results := [⟨1, .f32⟩, ⟨2, .f32⟩, ⟨3, .f32⟩], operands := [.temp 0], callee := "hue2rgb_f32" }

def tintSource : Program where
  externs := [⟨"hue2rgb_f32", .ofTypes [.f32] [.f32, .f32, .f32]⟩,
    ⟨"hue2rgb_q32", .ofTypes [.i32] [.i32, .i32, .i32]⟩]
  functions := [⟨"tint", .ofTypes [.f32] [.f32, .f32, .f32], [⟨"entry", [⟨0, .f32⟩], [
    tintCall, { Instr.blank .ret with operands := [.temp 1, .temp 2, .temp 3] }]⟩], [], []⟩]

def tintTarget : Program where
  externs := [⟨"hue2rgb_q32", .ofTypes [.i32] [.i32, .i32, .i32]⟩]
  functions := [⟨"tint", .ofTypes [.i32] [.i32, .i32, .i32], [⟨"entry", [⟨0, .i32⟩],
    (callByPlan "hue2rgb_q32" ⟨[.i32, .i32, .i32], 4, .buffer false⟩ [.temp 0] [1, 2, 3]).written
        ⟨4, .unknown, [], []⟩ ++
      [{ Instr.blank .ret with operands := [.temp 1, .temp 2, .temp 3] }]⟩], [⟨12, 4⟩], []⟩]

theorem tintCallDisagrees : tintSource.WellFormed ∧
    (pass tintConfig).run tintSource = .ok tintTarget ∧
    ∃ j ∈ callsOf tintTarget.code, ∀ sig, tintTarget.calleeSig? j.callee = some sig →
      ¬ j.Agrees sig := by
  have run : (pass tintConfig).run tintSource = .ok tintTarget := okOfOption (by decide +kernel)
  have calls : callsOf tintSource.code = [tintCall] := by decide +kernel
  have needed : redirect? tintConfig tintSource tintCall.callee =
      some ⟨"hue2rgb_q32", ⟨[⟨.ptr, .structReturn⟩, ⟨.i32, .normal⟩], []⟩⟩ := by decide +kernel
  have agree := loweredCallsAgree run
  rw [calls] at agree
  obtain ⟨j, rest, ⟨sig, stands, agree⟩, -, written⟩ := List.forall₂_cons_left_iff.mp agree
  refine ⟨by decide +kernel, run, j, written ▸ List.mem_cons_self, fun sig' found agrees => ?_⟩
  rw [stands] at found
  cases found
  obtain ⟨standing, declared, alike⟩ := agree.mp agrees _ needed
  have known : meaning? tintConfig tintSource "hue2rgb_q32" =
      some (.ofTypes [.i32] [.i32, .i32, .i32]) := by decide +kernel
  rw [known] at declared
  cases declared
  exact absurd alike.returns (by decide)

end Tint

theorem functionNames (made : List.Forall₂ (FunctionCode c p) fs fs') :
    fs'.map Function.name = fs.map Function.name := by
  induction made with
  | nil => rfl
  | cons head tail ih => exact congrArg₂ List.cons head.name ih

theorem notNamed {name : String} :
    p.functionNamed? name = none ↔ name ∉ p.functions.map Function.name := by
  simp [Program.functionNamed?, List.find?_eq_none]

theorem symbolsOnceIff (wellFormed : p.WellFormed) (run : (pass c).run p = .ok p') :
    p'.symbols.Nodup ↔ ∀ e ∈ neededBy c p p.code, p.functionNamed? e.name = none := by
  obtain ⟨externsOnce, functionsOnce, apart⟩ :=
    List.nodup_append.mp (WellFormed.symbolsOnce wellFormed)
  have sublist : ((p.externs.filter fun e => !e.sig.mentionsFloat).map Extern.name).Sublist
      (p.externs.map Extern.name) := List.filter_sublist.map Extern.name
  have externs : p'.externs = (neededBy c p p.code).foldl addExtern
      (p.externs.filter fun e => !e.sig.mentionsFloat) := functionsNeed (runTrace run).2
  rw [Program.symbols, functionNames (functionsCode (runTrace run).2), externs, List.nodup_append]
  constructor
  · rintro ⟨-, -, apart'⟩ e needed
    refine notNamed.mpr fun own => ?_
    exact apart' e.name (allAddedNames.mpr (.inr (List.mem_map_of_mem needed))) e.name own rfl
  · refine fun free => ⟨allAddedOnce (externsOnce.sublist sublist), functionsOnce, ?_⟩
    rintro name added _ own rfl
    rcases allAddedNames.mp added with old | new
    · exact apart name (sublist.subset old) name own rfl
    · obtain ⟨e, needed, rfl⟩ := List.mem_map.mp new
      exact notNamed.mp (free e needed) own

/-- Names stay distinct, and the calls of externs calls of externs, exactly as far as no function
has the name of an extern that a call needs. -/
theorem loweredSymbols (wellFormed : p.WellFormed) (run : (pass c).run p = .ok p') :
    (p'.symbols.Nodup ↔ ∀ e ∈ neededBy c p p.code, p.functionNamed? e.name = none) ∧
      List.Forall₂ (fun i j => p.functionNamed? i.callee = none →
        (p'.externNamed? j.callee).isSome ∧
          (p'.functionNamed? j.callee = none ↔
            ∀ e, redirect? c p i.callee = some e → p.functionNamed? e.name = none))
        (callsOf p.code) (callsOf p'.code) := by
  refine ⟨symbolsOnceIff wellFormed run, (runCalls run).imp ?_⟩
  rintro i j ⟨member, target, called⟩ foreign
  obtain ⟨f, resolves⟩ := called.resolves
  rw [hidden run, externMeaning run, called.callee]
  rcases resolvesMeans resolves with ⟨none, same, means⟩ | redirected
  · rw [same]
    rw [meaning?, foreign] at means
    refine ⟨?_, iff_of_true foreign fun e some => ?_⟩
    · obtain ⟨e, found, -⟩ := Option.map_eq_some_iff.mp means
      exact found ▸ rfl
    · rw [none] at some
      cases some
  · have needed := List.mem_append_right (p.externs.filter fun e => !e.sig.mentionsFloat)
      (neededCall member redirected)
    refine ⟨List.find?_isSome.mpr ⟨_, needed, decide_eq_true rfl⟩, fun free e some => ?_,
      fun free => free _ redirected⟩
    rw [redirected] at some
    cases some
    exact free

section Wave

def sineBuiltins : List Builtin.Implementation :=
  let prototype : Builtin.Prototype := ⟨"sin", .float, [⟨"x", .float, .input⟩]⟩
  [⟨prototype, some .float, "sin_f32", "", none⟩,
    ⟨prototype, some .fixedPoint, "sin_q32", "", none⟩]

def waveConfig : Config :=
  ⟨(Builtin.Registry.create sineBuiltins).toOption.getD .empty, .host, .fixed16x16⟩

def waveCall : Instr :=
  { Instr.blank .call with
    type := .f32, results := [⟨1, .f32⟩], operands := [.temp 0], callee := "sin_f32" }

def waveSource : Program where
  externs := [⟨"sin_f32", .ofTypes [.f32] [.f32]⟩]
  functions := [
    ⟨"sin_q32", .ofTypes [.i32] [.i32], [⟨"entry", [⟨0, .i32⟩], [
      { Instr.blank .ret with operands := [.int 7] }]⟩], [], []⟩,
    ⟨"wave", .ofTypes [.f32] [.f32], [⟨"entry", [⟨0, .f32⟩], [
      waveCall, { Instr.blank .ret with operands := [.temp 1] }]⟩], [], []⟩]

def waveTarget : Program where
  externs := [⟨"sin_q32", .ofTypes [.i32] [.i32]⟩]
  functions := [
    ⟨"sin_q32", .ofTypes [.i32] [.i32], [⟨"entry", [⟨0, .i32⟩], [
      { Instr.blank .ret with operands := [.int 7] }]⟩], [], []⟩,
    ⟨"wave", .ofTypes [.i32] [.i32], [⟨"entry", [⟨0, .i32⟩], [
      { Instr.blank .call with
        type := .i32, results := [⟨1, .i32⟩], operands := [.temp 0], callee := "sin_q32" },
      { Instr.blank .ret with operands := [.temp 1] }]⟩], [], []⟩]

theorem waveCapturesSine : waveSource.WellFormed ∧
    (pass waveConfig).run waveSource = .ok waveTarget ∧ ¬ waveTarget.symbols.Nodup ∧
    waveSource.functionNamed? waveCall.callee = none ∧
    ∃ j ∈ callsOf waveTarget.code, (waveTarget.functionNamed? j.callee).isSome := by
  have wellFormed : waveSource.WellFormed := by decide +kernel
  have run : (pass waveConfig).run waveSource = .ok waveTarget := okOfOption (by decide +kernel)
  have calls : callsOf waveSource.code = [waveCall] := by decide +kernel
  have foreign : waveSource.functionNamed? waveCall.callee = none := by decide +kernel
  have needed : redirect? waveConfig waveSource waveCall.callee =
      some ⟨"sin_q32", .ofTypes [.i32] [.i32]⟩ := by decide +kernel
  have own : waveSource.functionNamed? "sin_q32" ≠ none := by decide +kernel
  obtain ⟨once, kept⟩ := loweredSymbols wellFormed run
  rw [calls] at kept
  obtain ⟨j, rest, external, -, written⟩ := List.forall₂_cons_left_iff.mp kept
  refine ⟨wellFormed, run, fun distinct => own ?_, foreign, j, written ▸ List.mem_cons_self, ?_⟩
  · exact once.mp distinct _ (neededCall (calls ▸ List.mem_cons_self) needed)
  · obtain ⟨-, captured⟩ := external foreign
    exact Option.isSome_iff_ne_none.mpr fun free => own (captured.mp free _ needed)

end Wave

end Programs

end Lowering
end FixedIL
