import FixedIL.Lowering.Pass
import FixedIL.Proofs.Casts
import FixedIL.Proofs.PassSteps

/-!
What lowering makes of one instruction: the code it writes and what its results become.
An instruction becomes one other instruction, the sequence of a float operation, a call, or
another name of its operand.
-/
namespace FixedIL.Lowering

open PassM

def copied : Opcode → Bool
  | .int _ | .icmp _ | .sext | .zext | .trunc | .zext1 | .trunc1 | .br | .cbr | .ret => true
  | _ => false

inductive Resolves (c : Config) (site : Site) (callee : String) : CallTarget → Prop where
  | function {sig : Signature} (own : site.signature? callee = some sig) :
      Resolves c site callee ⟨callee, sig, .direct sig.returnTypes⟩
  | builtin {hit : Builtin.Registry.SymbolHit} {m : Builtin.Implementation} {plan : ReturnPlan}
      {sig : Signature} (foreign : site.signature? callee = none)
      (found : c.registry.findSymbol? callee = some hit)
      (fixed : c.registry.implementationFor? hit.descriptor .fixedPoint = some m)
      (classified : ReturnPlan.classify
        (hit.descriptor.prototype.flatten .fixedPoint).returnTypes c.target = .ok plan)
      (legal : ReturnPlan.legalize (hit.descriptor.prototype.flatten .fixedPoint) c.target =
        .ok sig) :
      Resolves c site callee ⟨m.symbol, sig, plan⟩
  | outside {e : Extern} (foreign : site.signature? callee = none)
      (unknown : c.registry.findSymbol? callee = none)
      (declared : site.program.externNamed? callee = some e)
      (floatFree : e.sig.mentionsFloat = false) :
      Resolves c site callee ⟨callee, e.sig, .direct e.sig.returnTypes⟩

inductive Rewritten (site : Site) (σ : Value → Value) (i : Instr) : Instr → Prop where
  | intConst {v : Value} {t : Temp} {n : Int64} (op : i.op = .iconst) (operands : i.operands = [v])
      (results : i.results = [t]) (literal : v.intLiteral? = some n) :
      Rewritten site σ i (redefinition i t .iconst i.type [v])
  | floatConst {v : Value} {t : Temp} {x : Float} (op : i.op = .fconst)
      (operands : i.operands = [v]) (results : i.results = [t])
      (literal : numberLiteral? v = some x) :
      Rewritten site σ i
        (redefinition i t .iconst (site.encoding.mapTy i.type) [.int (Fixed.ofFloat x).toInt64])
  | intLiteral {v : Value} {t : Temp} {n : Int64} (op : i.op = .sitofp)
      (operands : i.operands = [v]) (results : i.results = [t])
      (literal : v.intLiteral? = some n) :
      Rewritten site σ i
        (redefinition i t .iconst .i32 [.int (Fixed.ofInt n.toInt32).toInt64])
  | select {t : Temp} (op : i.op = .select) (operands : i.operands.length = 3)
      (results : i.results = [t]) :
      Rewritten site σ i
        (redefinition i t .select (site.encoding.mapTy i.type) (i.operands.map σ))
  | load {t : Temp} (op : i.op = .load) (operands : i.operands.length = 2)
      (results : i.results = [t]) :
      Rewritten site σ i
        (redefinition i t .load (site.encoding.mapTy i.type) (i.operands.map σ))
  | store (op : i.op = .store) (operands : i.operands.length = 3) (results : i.results = []) :
      Rewritten site σ i { Instr.blank .store with
        type := site.encoding.mapTy i.type, operands := i.operands.map σ, loc := i.loc }
  | stackaddr {v : Value} {t : Temp} {n : Int64} (op : i.op = .stackaddr)
      (operands : i.operands.length = 2) (results : i.results = [t])
      (slot : i.operands.head? = some v) (literal : v.intLiteral? = some n) (nonneg : 0 ≤ n) :
      Rewritten site σ i { i with
        operands := .int n.toUInt64.toUInt32.toUInt64.toInt64 :: (i.operands.map σ).drop 1
        branchArgs := i.branchArgs.map (·.map σ) }
  | copied (op : copied i.op = true) :
      Rewritten site σ i { i with
        operands := i.operands.map σ
        branchArgs := i.branchArgs.map (·.map σ) }

inductive Sequenced (site : Site) (σ : Value → Value) (i : Instr) : (TempId → Emit Value) → Prop where
  | arith {op : FloatOp} {u : Value} {rest : List Value} (is : i.op = .float op)
      (count : i.operands.length = op.operands) (float : i.type.isFloat)
      (operands : i.operands = u :: rest) :
      Sequenced site σ i (Sequence.ofFloatOp op (σ u) (σ (rest.head?.getD u)))
  | compare {cmp : FloatCompare} {u v : Value} (is : i.op = .fcmp cmp)
      (operands : i.operands = [u, v]) :
      Sequenced site σ i (Sequence.compare cmp (σ u) (σ v))
  | ofInt {v : Value} {type : Ty} (is : i.op = .sitofp) (operands : i.operands = [v])
      (typed : site.typeOf? v = some type) (integer : type.isInteger)
      (temp : v.intLiteral? = none) :
      Sequenced site σ i (Sequence.ofInt (σ v) type)
  | toInt {v : Value} (is : i.op = .fptosi) (operands : i.operands = [v])
      (integer : i.type.isInteger) (number : i.type ≠ .i1) :
      Sequenced site σ i (Sequence.toInt (σ v) i.type)

def keptNames (i : Instr) : List (TempId × Value) := i.results.map fun t => (t.id, .temp t.id)

inductive Lowered (c : Config) (site : Site) (σ : Value → Value) (i : Instr) :
    Emit Unit → List (TempId × Value) → Prop where
  | one {j : Instr} (rewritten : Rewritten site σ i j) :
      Lowered c site σ i (Emit.append j) (keptNames i)
  | sequence {t : Temp} {q : TempId → Emit Value} (results : i.results = [t])
      (sequenced : Sequenced site σ i q) :
      Lowered c site σ i (do let _ ← q t.id) (keptNames i)
  | same {t : Temp} {v : Value} (cast : sameNumberCast i.op = true) (operands : i.operands = [v])
      (results : i.results = [t]) :
      Lowered c site σ i (pure ()) [(t.id, σ v)]
  | call {target : CallTarget} (op : i.op = .call) (resolves : Resolves c site i.callee target)
      (args : i.operands.length =
        target.sig.params.length - (if target.plan.usesBuffer then 1 else 0))
      (results : i.results.length = target.plan.types.length) :
      Lowered c site σ i
        (do let _ ← Emit.callByPlan target.symbol target.plan (i.operands.map σ)
              (i.results.map Temp.id))
        (keptNames i)

def nameAll (names : List (TempId × Value)) (values : List (TempId × Value)) :
    List (TempId × Value) :=
  names.foldl (fun values n => insertNew n.1 n.2 values) values

inductive Foreign (c : Config) (p : Program) : Extern → Prop where
  | kept {e : Extern} (source : e ∈ p.externs) (floatFree : e.sig.mentionsFloat = false) :
      Foreign c p e
  | builtin {symbol : String} {hit : Builtin.Registry.SymbolHit} {m : Builtin.Implementation}
      {sig : Signature} (found : c.registry.findSymbol? symbol = some hit)
      (fixed : c.registry.implementationFor? hit.descriptor .fixedPoint = some m)
      (legal : ReturnPlan.legalize (hit.descriptor.prototype.flatten .fixedPoint) c.target =
        .ok sig) : Foreign c p ⟨m.symbol, sig⟩

def redirect? (c : Config) (p : Program) (callee : String) : Option Extern :=
  if (p.functionNamed? callee).isSome then none
  else do
    let hit ← c.registry.findSymbol? callee
    let m ← c.registry.implementationFor? hit.descriptor .fixedPoint
    let sig ← (ReturnPlan.legalize (hit.descriptor.prototype.flatten .fixedPoint)
      c.target).toOption
    some ⟨m.symbol, sig⟩

def addExtern (externs : List Extern) (e : Extern) : List Extern :=
  if externs.any (fun other => other.name = e.name) then externs else externs ++ [e]

def neededBy (c : Config) (p : Program) (code : List Instr) : List Extern :=
  (callsOf code).filterMap fun i => redirect? c p i.callee

def Linked (c : Config) (site : Site) (externs : List Extern) (callee : String) : Prop :=
  site.signature? callee = none → ∀ hit m, c.registry.findSymbol? callee = some hit →
    c.registry.implementationFor? hit.descriptor .fixedPoint = some m →
    ∃ e ∈ externs, e.name = m.symbol

def Declares (c : Config) (p : Program) (before after : List Extern) : Prop :=
  ∃ more, after = before ++ more ∧ ∀ e ∈ more, Foreign c p e

section Declares

variable {c : Config} {p : Program} {before mid after : List Extern}

theorem declaresNone : Declares c p before before :=
  ⟨[], (List.append_nil _).symm, fun _ none => nomatch none⟩

theorem declaresTrans (first : Declares c p before mid) (second : Declares c p mid after) :
    Declares c p before after := by
  obtain ⟨more, rfl, foreign⟩ := first
  obtain ⟨more', rfl, foreign'⟩ := second
  refine ⟨more ++ more', List.append_assoc .., fun e member => ?_⟩
  exact (List.mem_append.mp member).elim (foreign e) (foreign' e)

theorem declaresMore (declares : Declares c p before after) : before <+: after := by
  obtain ⟨more, rfl, -⟩ := declares
  exact List.prefix_append ..

theorem declaresForeign (declares : Declares c p before after)
    (foreign : ∀ e ∈ before, Foreign c p e) : ∀ e ∈ after, Foreign c p e := by
  obtain ⟨more, rfl, foreign'⟩ := declares
  exact fun e member => (List.mem_append.mp member).elim (foreign e) (foreign' e)

theorem addedDeclares {e : Extern} (foreign : Foreign c p e) :
    Declares c p before (addExtern before e) := by
  unfold addExtern
  split
  · exact declaresNone
  · exact ⟨[e], rfl, fun other member => List.mem_singleton.mp member ▸ foreign⟩

theorem allAddedDeclare {es : List Extern} (foreign : ∀ e ∈ es, Foreign c p e) :
    Declares c p before (es.foldl addExtern before) := by
  induction es generalizing before with
  | nil => exact declaresNone
  | cons e rest ih =>
    exact declaresTrans (addedDeclares (foreign e List.mem_cons_self))
      (ih fun other member => foreign other (List.mem_cons_of_mem _ member))

theorem addedPresent (externs : List Extern) (e : Extern) :
    ∃ other ∈ addExtern externs e, other.name = e.name := by
  unfold addExtern
  split
  · rename_i present
    simpa using present
  · exact ⟨e, by simp, rfl⟩

end Declares

section Redirects

variable {c : Config} {p : Program} {site : Site} {callee : String} {i : Instr} {code : List Instr}

theorem redirectIff {e : Extern} : redirect? c p callee = some e ↔
    p.functionNamed? callee = none ∧ ∃ hit m sig, c.registry.findSymbol? callee = some hit ∧
      c.registry.implementationFor? hit.descriptor .fixedPoint = some m ∧
      ReturnPlan.legalize (hit.descriptor.prototype.flatten .fixedPoint) c.target = .ok sig ∧
      e = ⟨m.symbol, sig⟩ := by
  have legal (x : Except ReturnPlan.Error Signature) (sig : Signature) :
      x.toOption = some sig ↔ x = .ok sig := ⟨okOfOption, fun ok => ok ▸ rfl⟩
  by_cases foreign : p.functionNamed? callee = none
  · simp [redirect?, foreign, legal, Option.bind_eq_some_iff, eq_comm (a := e)]
  · simp [redirect?, foreign]

theorem redirectForeign {e : Extern} (redirected : redirect? c p callee = some e) :
    Foreign c p e := by
  obtain ⟨-, hit, m, sig, found, fixed, legal, rfl⟩ := redirectIff.mp redirected
  exact .builtin found fixed legal

theorem ownRedirect (own : (p.functionNamed? callee).isSome) : redirect? c p callee = none := by
  cases found : redirect? c p callee with
  | none => rfl
  | some e =>
    rw [(redirectIff.mp found).1] at own
    cases own

theorem unknownRedirect (unknown : c.registry.findSymbol? callee = none) :
    redirect? c p callee = none := by
  cases found : redirect? c p callee with
  | none => rfl
  | some e =>
    obtain ⟨-, hit, m, sig, known, -⟩ := redirectIff.mp found
    rw [unknown] at known
    cases known

theorem foreignSignature : site.signature? callee = none ↔
    site.program.functionNamed? callee = none := Option.map_eq_none_iff

theorem neededAppend (code code' : List Instr) :
    neededBy c p (code ++ code') = neededBy c p code ++ neededBy c p code' := by
  simp [neededBy, callsOf]

theorem nothingNeeded (plain : i.op ≠ .call) : neededBy c p [i] = [] := by
  simp [neededBy, callsOf, plain]

theorem callNeeds (op : i.op = .call) : neededBy c p [i] = (redirect? c p i.callee).toList := by
  cases redirected : redirect? c p i.callee <;> simp [neededBy, callsOf, op, redirected]

theorem neededForeign : ∀ e ∈ neededBy c p code, Foreign c p e := by
  intro e member
  obtain ⟨i, -, redirected⟩ := List.mem_filterMap.mp member
  exact redirectForeign redirected

theorem linkedNeeds {externs : List Extern} (linked : Linked c site externs callee) :
    (redirect? c site.program callee).toList.foldl addExtern externs = externs := by
  cases redirected : redirect? c site.program callee with
  | none => rfl
  | some e =>
    obtain ⟨foreign, hit, m, sig, found, fixed, -, rfl⟩ := redirectIff.mp redirected
    obtain ⟨other, member, name⟩ := linked (foreignSignature.mpr foreign) hit m found fixed
    have present : externs.any (fun other => other.name = m.symbol) = true :=
      List.any_eq_true.mpr ⟨other, member, decide_eq_true name⟩
    exact if_pos present

end Redirects

/- Labels and frame slots are given the names they had, and callees keep their targets. -/
structure Steady (c : Config) (site : Site) (s : PassState) : Prop where
  labels : ∀ k v, s.labels.lookup k = some v → v = k
  slots : ∀ k v, s.slots.lookup k = some v → v = k
  targets : ∀ callee target, s.callTargets.lookup callee = some target →
    Resolves c site callee target ∧ Linked c site s.externs callee

theorem Steady.carry {c : Config} {site : Site} {s s' : PassState} (steady : Steady c site s)
    (labels : s'.labels = s.labels) (slots : s'.slots = s.slots)
    (targets : s'.callTargets = s.callTargets) (externs : s'.externs = s.externs) :
    Steady c site s' := by
  obtain ⟨values', labels', slots', targets', externs', emission'⟩ := s'
  subst labels slots targets externs
  exact ⟨steady.labels, steady.slots, steady.targets⟩

structure Leads (c : Config) (site : Site) (i : Instr) (s : PassState) (x : Emit Unit)
    (names : List (TempId × Value)) (s' : PassState) : Prop where
  emission : s'.emission = (x.run s.emission).2
  values : s'.values = nameAll names s.values
  steady : Steady c site s'
  externs : s'.externs = (neededBy c site.program [i]).foldl addExtern s.externs
  linked : i.op = .call → Linked c site s'.externs i.callee

section Steps

variable {c : Config} {site : Site} {s s' : PassState} {i : Instr} {u : Unit}

@[simp] theorem givesShape {operands results : Nat} :
    (expectShape site i operands results).Gives s u s' ↔
      i.operands.length = operands ∧ i.results.length = results ∧ s' = s := by
  simp [expectShape]

theorem oneLeads {j : Instr} (steady : Steady c site s) (plain : i.op ≠ .call)
    (state : s' = { s with emission := s.emission.push j, values := nameAll (keptNames i) s.values }) :
    Leads c site i s (Emit.append j) (keptNames i) s' := by
  subst state
  refine ⟨rfl, rfl, steady.carry rfl rfl rfl rfl, ?_, fun call => absurd call plain⟩
  rw [nothingNeeded plain]
  rfl

theorem redefinitionLeads {t : Temp} {op : Opcode} {type : Ty} {operands : List Value}
    (steady : Steady c site s) (plain : i.op ≠ .call) (results : i.results = [t])
    (state : s' = { s with emission := s.emission.push (redefinition i t op type operands) }.mapValue
      t.id (.temp t.id)) :
    Leads c site i s (Emit.append (redefinition i t op type operands)) (keptNames i) s' := by
  refine oneLeads steady plain ?_
  rw [keptNames, results]
  exact state

theorem constantGives (steady : Steady c site s) (op : i.op = .iconst ∨ i.op = .fconst)
    (gives : (constant site i).Gives s u s') :
    ∃ x names, Lowered c site (s.operand site.encoding) i x names ∧ Leads c site i s x names s' := by
  have plain : i.op ≠ .call := by rcases op with op | op <;> simp [op]
  simp only [constant, givesBind, givesShape] at gives
  obtain ⟨_, mid, ⟨operands, results, rfl⟩, gives⟩ := gives
  obtain ⟨v, isOperand⟩ := List.length_eq_one_iff.mp operands
  obtain ⟨t, isResult⟩ := List.length_eq_one_iff.mp results
  simp only [isOperand, isResult, givesIte, givesMalformed, and_false, false_or] at gives
  rcases gives with ⟨isInt, literal, gives⟩ | ⟨isFloat, gives⟩
  · simp only [givesBind, givesRedefine, givesPure] at gives
    obtain ⟨_, mid, ⟨-, state⟩, -, rfl⟩ := gives
    obtain ⟨n, isLiteral⟩ := Option.ne_none_iff_exists'.mp (by simpa using literal)
    exact ⟨_, _, .one (.intConst isInt isOperand isResult isLiteral),
      redefinitionLeads steady plain isResult state⟩
  · cases literal : numberLiteral? v with
    | none => simp [literal] at gives
    | some x =>
      simp only [literal, givesBind, givesRedefine, givesPure] at gives
      obtain ⟨_, mid, ⟨-, state⟩, -, rfl⟩ := gives
      exact ⟨_, _, .one (.floatConst (op.resolve_left isFloat) isOperand isResult literal),
        redefinitionLeads steady plain isResult state⟩

theorem keepNames (ids : List TempId) (s : PassState) :
    ids.foldl (fun s id => s.mapValue id (.temp id)) s =
      { s with values := nameAll (ids.map fun id => (id, .temp id)) s.values } := by
  induction ids generalizing s with
  | nil => rfl
  | cons id rest ih => exact ih _

theorem labelsGive (same : ∀ k v, s.labels.lookup k = some v → v = k)
    {labels labels' : List String} (gives : (labels.mapM (targetLabel site i)).Gives s labels' s') :
    labels' = labels ∧ s' = s := by
  have each (label new s') (found : (targetLabel site i label).Gives s new s') :
      new = id label ∧ s' = s := by
    simp only [targetLabel, givesBind, givesGet] at found
    obtain ⟨_, _, ⟨rfl, rfl⟩, found⟩ := found
    split at found
    · rename_i known
      obtain ⟨rfl, rfl⟩ := givesPure.mp found
      exact ⟨same label _ known, rfl⟩
    · cases givesMalformed found
  obtain ⟨is, kept⟩ := givesMapM each gives
  exact ⟨is.trans (List.map_id labels), kept⟩

theorem branchArgsGive {lists lists' : List (List Value)}
    (gives : (lists.mapM (operands site)).Gives s lists' s') :
    lists' = lists.map (s.operands site.encoding) ∧ s' = s :=
  givesMapM (fun _ _ _ gives => givesOperands.mp gives) gives

theorem copiedPlain (kept : copied i.op = true) : i.op ≠ .call := by
  intro call
  rw [call] at kept
  cases kept

theorem copiedNoCast (kept : copied i.op = true) : sameNumberCast i.op = false := by
  revert kept
  cases i.op <;> simp [copied, sameNumberCast]

theorem rewrittenNoCast {σ : Value → Value} {j : Instr} (rewritten : Rewritten site σ i j) :
    sameNumberCast i.op = false := by
  cases rewritten with
  | copied op => exact copiedNoCast op
  | intConst op | floatConst op | intLiteral op | select op | load op | store op
  | stackaddr op => rw [op]; rfl

theorem sequencedNoCast {σ : Value → Value} {q : TempId → Emit Value}
    (sequenced : Sequenced site σ i q) : sameNumberCast i.op = false := by
  cases sequenced with
  | arith is | compare is | ofInt is | toInt is => rw [is]; rfl

theorem copyGives (steady : Steady c site s) (kept : copied i.op = true)
    (gives : (copy site i).Gives s u s') :
    ∃ x names, Lowered c site (s.operand site.encoding) i x names ∧ Leads c site i s x names s' := by
  have plain : i.op ≠ .stackaddr := by
    rintro address
    rw [address] at kept
    cases kept
  simp only [copy, plain, if_false, givesBind, givesOperands, givesPure, givesKeepTemps,
    givesEmit] at gives
  obtain ⟨_, _, ⟨rfl, rfl⟩, branchArgs, _, lists, labels, _, targets, _, _, ⟨rfl, rfl⟩, _, _,
    rfl, -, rfl⟩ := gives
  obtain ⟨rfl, rfl⟩ := branchArgsGive lists
  obtain ⟨rfl, rfl⟩ := labelsGive steady.labels targets
  refine ⟨_, _, .one (.copied kept), oneLeads steady (copiedPlain kept) ?_⟩
  rw [keepNames, keptNames, List.map_map]
  rfl

theorem slotGives (same : ∀ k v, s.slots.lookup k = some v → v = k) {values values' : List Value}
    (gives : (slotOperands site i values).Gives s values' s') :
    s' = s ∧ ∃ v n, i.operands.head? = some v ∧ v.intLiteral? = some n ∧ 0 ≤ n ∧
      values' = .int n.toUInt64.toUInt32.toUInt64.toInt64 :: values.drop 1 := by
  simp only [slotOperands, givesBind, givesGet] at gives
  obtain ⟨_, _, ⟨rfl, rfl⟩, gives⟩ := gives
  split at gives
  · rename_i new known
    obtain ⟨rfl, rfl⟩ := givesPure.mp gives
    obtain ⟨v, isHead, known⟩ := Option.bind_eq_some_iff.mp known
    obtain ⟨n, literal, known⟩ := Option.bind_eq_some_iff.mp known
    split at known
    · rename_i nonneg
      rw [same _ _ known]
      exact ⟨rfl, v, n, isHead, literal, nonneg, rfl⟩
    · cases known
  · cases givesMalformed gives

theorem stackaddrGives (steady : Steady c site s) (op : i.op = .stackaddr)
    (gives : (memory site i).Gives s u s') :
    ∃ x names, Lowered c site (s.operand site.encoding) i x names ∧ Leads c site i s x names s' := by
  simp only [memory, op, copy, if_true, givesBind, givesShape, givesOperands, givesKeepTemps,
    givesEmit] at gives
  obtain ⟨_, _, ⟨operands, results, rfl⟩, _, _, ⟨rfl, rfl⟩, branchArgs, _, lists, labels, _,
    targets, values, _, slot, _, _, rfl, -, rfl⟩ := gives
  obtain ⟨rfl, rfl⟩ := branchArgsGive lists
  obtain ⟨rfl, rfl⟩ := labelsGive steady.labels targets
  obtain ⟨rfl, v, n, isHead, literal, nonneg, rfl⟩ := slotGives steady.slots slot
  obtain ⟨t, isResult⟩ := List.length_eq_one_iff.mp results
  have plain : i.op ≠ .call := by simp [op]
  refine ⟨_, _, .one (.stackaddr op operands isResult isHead literal nonneg),
    oneLeads steady plain ?_⟩
  rw [keepNames, keptNames, List.map_map, op]
  rfl

theorem takeOne {i : Instr} {t : Temp} (results : i.results = [t]) : i.results.take 1 = [t] := by
  rw [results]
  rfl

theorem loadGives (steady : Steady c site s) (op : i.op = .load)
    (gives : (memory site i).Gives s u s') :
    ∃ x names, Lowered c site (s.operand site.encoding) i x names ∧ Leads c site i s x names s' := by
  simp only [memory, op, givesBind, givesShape] at gives
  obtain ⟨_, _, ⟨operands, results, rfl⟩, gives⟩ := gives
  obtain ⟨t, isResult⟩ := List.length_eq_one_iff.mp results
  simp only [takeOne isResult, List.forIn_cons, List.forIn_nil, bind_assoc, pure_bind, givesBind,
    givesOperands, givesRedefine, givesPure] at gives
  obtain ⟨_, _, ⟨_, _, ⟨rfl, rfl⟩, _, _, ⟨-, state⟩, -, rfl⟩, -, rfl⟩ := gives
  have plain : i.op ≠ .call := by simp [op]
  exact ⟨_, _, .one (.load op operands isResult), redefinitionLeads steady plain isResult state⟩

theorem storeGives (steady : Steady c site s) (op : i.op = .store)
    (gives : (memory site i).Gives s u s') :
    ∃ x names, Lowered c site (s.operand site.encoding) i x names ∧ Leads c site i s x names s' := by
  simp only [memory, op, givesBind, givesShape, givesOperands, givesEmit] at gives
  obtain ⟨_, _, ⟨operands, results, rfl⟩, _, _, ⟨rfl, rfl⟩, -, rfl⟩ := gives
  have none : i.results = [] := List.length_eq_zero_iff.mp results
  have plain : i.op ≠ .call := by simp [op]
  refine ⟨_, _, .one (.store op operands none), oneLeads steady plain ?_⟩
  rw [keptNames, none]
  rfl

theorem selectGives (steady : Steady c site s) (op : i.op = .select)
    (gives : (passThrough site i).Gives s u s') :
    ∃ x names, Lowered c site (s.operand site.encoding) i x names ∧ Leads c site i s x names s' := by
  simp only [passThrough, op, if_true, givesBind, givesShape] at gives
  obtain ⟨_, _, ⟨operands, results, rfl⟩, gives⟩ := gives
  obtain ⟨t, isResult⟩ := List.length_eq_one_iff.mp results
  simp only [takeOne isResult, List.forIn_cons, List.forIn_nil, bind_assoc, pure_bind, givesBind,
    givesOperands, givesRedefine, givesPure] at gives
  obtain ⟨_, _, ⟨_, _, ⟨rfl, rfl⟩, _, _, ⟨-, state⟩, -, rfl⟩, -, rfl⟩ := gives
  have plain : i.op ≠ .call := by simp [op]
  exact ⟨_, _, .one (.select op operands isResult), redefinitionLeads steady plain isResult state⟩

theorem sequenceLeads {t : Temp} {q : TempId → Emit Value} (steady : Steady c site s)
    (plain : i.op ≠ .call) (results : i.results = [t]) (gives : (bySequence i q).Gives s u s') :
    Leads c site i s (do let _ ← q t.id) (keptNames i) s' := by
  simp only [bySequence, results, givesBind, givesEmit', givesMapValue] at gives
  obtain ⟨_, _, rfl, rfl⟩ := gives
  refine ⟨?_, ?_, steady.carry rfl rfl rfl rfl, ?_, fun call => absurd call plain⟩
  · rw [StateT.run_bind]
    rfl
  · rw [keptNames, results]
    rfl
  · rw [nothingNeeded plain]
    rfl

theorem floatArithGives {op : FloatOp} (steady : Steady c site s) (is : i.op = .float op)
    (gives : (floatArith site i op).Gives s u s') :
    ∃ x names, Lowered c site (s.operand site.encoding) i x names ∧ Leads c site i s x names s' := by
  simp only [floatArith, givesBind, givesShape, givesIte, givesMalformed, and_false, false_or,
    givesOperands] at gives
  obtain ⟨_, _, ⟨count, results, rfl⟩, float, _, s, ⟨rfl, rfl⟩, gives⟩ := gives
  obtain ⟨t, isResult⟩ := List.length_eq_one_iff.mp results
  cases isOperand : i.operands with
  | nil =>
    rw [isOperand] at count
    cases op <;> cases count
  | cons v rest =>
    have second : ((rest.map (s.operand site.encoding)).head?.getD (s.operand site.encoding v)) =
        s.operand site.encoding (rest.head?.getD v) := by
      cases rest <;> rfl
    simp only [PassState.operands, isOperand, List.map_cons, second] at gives
    exact ⟨_, _, .sequence isResult (.arith is count (by simpa using float) isOperand),
      sequenceLeads steady (by simp [is]) isResult gives⟩

theorem floatCompareGives {cmp : FloatCompare} (steady : Steady c site s) (is : i.op = .fcmp cmp)
    (gives : (floatCompare site i cmp).Gives s u s') :
    ∃ x names, Lowered c site (s.operand site.encoding) i x names ∧ Leads c site i s x names s' := by
  simp only [floatCompare, givesBind, givesShape, givesOperands] at gives
  obtain ⟨_, _, ⟨count, results, rfl⟩, _, _, ⟨rfl, rfl⟩, gives⟩ := gives
  obtain ⟨t, isResult⟩ := List.length_eq_one_iff.mp results
  obtain ⟨v, v', isOperand⟩ := List.length_eq_two.mp count
  simp only [PassState.operands, isOperand, List.map_cons] at gives
  exact ⟨_, _, .sequence isResult (.compare is isOperand),
    sequenceLeads steady (by simp [is]) isResult gives⟩

theorem ofIntGives {v : Value} {t : Temp} (steady : Steady c site s) (is : i.op = .sitofp)
    (isOperand : i.operands = [v]) (isResult : i.results = [t])
    (gives : (ofInt site i v).Gives s u s') :
    ∃ x names, Lowered c site (s.operand site.encoding) i x names ∧ Leads c site i s x names s' := by
  simp only [ofInt, isResult] at gives
  cases literal : v.intLiteral? with
  | some n =>
    simp only [literal, givesBind, givesRedefine, givesPure] at gives
    obtain ⟨_, _, ⟨-, state⟩, -, rfl⟩ := gives
    exact ⟨_, _, .one (.intLiteral is isOperand isResult literal),
      redefinitionLeads steady (by simp [is]) isResult state⟩
  | none =>
    cases typed : (site.typeOf? v).filter Ty.isInteger with
    | none => simp [literal, typed] at gives
    | some type =>
      simp only [literal, typed, givesBind, givesOperand] at gives
      obtain ⟨_, _, ⟨rfl, rfl⟩, gives⟩ := gives
      obtain ⟨typed, integer⟩ := Option.filter_eq_some_iff.mp typed
      exact ⟨_, _, .sequence isResult (.ofInt is isOperand typed integer literal),
        sequenceLeads steady (by simp [is]) isResult gives⟩

theorem toIntGives {v : Value} {t : Temp} (steady : Steady c site s) (is : i.op = .fptosi)
    (isOperand : i.operands = [v]) (isResult : i.results = [t])
    (gives : (toInt site i v).Gives s u s') :
    ∃ x names, Lowered c site (s.operand site.encoding) i x names ∧ Leads c site i s x names s' := by
  simp only [toInt, givesIte, givesMalformed, and_false, false_or, givesBind, givesOperand] at gives
  obtain ⟨target, _, _, ⟨rfl, rfl⟩, gives⟩ := gives
  simp only [Bool.or_eq_true, Bool.not_eq_true', decide_eq_true_eq, not_or,
    Bool.not_eq_false] at target
  exact ⟨_, _, .sequence isResult (.toInt is isOperand target.1 target.2),
    sequenceLeads steady (by simp [is]) isResult gives⟩

theorem sameNumberGives {v : Value} {t : Temp} (steady : Steady c site s)
    (cast : sameNumberCast i.op = true) (isOperand : i.operands = [v]) (isResult : i.results = [t])
    (gives : (sameNumber site i v).Gives s u s') :
    ∃ x names, Lowered c site (s.operand site.encoding) i x names ∧ Leads c site i s x names s' := by
  simp only [sameNumber, isResult, givesBind, givesOperand, givesMapValue] at gives
  obtain ⟨_, _, ⟨rfl, rfl⟩, rfl⟩ := gives
  have plain : i.op ≠ .call := by
    intro call
    rw [call] at cast
    cases cast
  refine ⟨_, _, .same cast isOperand isResult, rfl, rfl, steady.carry rfl rfl rfl rfl, ?_,
    fun call => absurd call plain⟩
  rw [nothingNeeded plain]
  rfl

theorem conversionGives (steady : Steady c site s)
    (cast : i.op = .sitofp ∨ i.op = .fptosi ∨ sameNumberCast i.op = true)
    (gives : (conversion site i).Gives s u s') :
    ∃ x names, Lowered c site (s.operand site.encoding) i x names ∧ Leads c site i s x names s' := by
  simp only [conversion, givesBind, givesShape] at gives
  obtain ⟨_, _, ⟨count, results, rfl⟩, gives⟩ := gives
  obtain ⟨t, isResult⟩ := List.length_eq_one_iff.mp results
  obtain ⟨v, isOperand⟩ := List.length_eq_one_iff.mp count
  simp only [isOperand] at gives
  rcases cast with is | is | cast
  · simp only [is] at gives
    exact ofIntGives steady is isOperand isResult gives
  · simp only [is] at gives
    exact toIntGives steady is isOperand isResult gives
  · split at gives
    · simp_all [sameNumberCast]
    · simp_all [sameNumberCast]
    · exact sameNumberGives steady cast isOperand isResult gives

theorem linkedMore {externs externs' : List Extern} {callee : String}
    (linked : Linked c site externs callee) (more : externs <+: externs') :
    Linked c site externs' callee := by
  intro foreign hit m found fixed
  obtain ⟨e, member, name⟩ := linked foreign hit m found fixed
  exact ⟨e, more.subset member, name⟩

theorem builtinGives {d : Builtin.Descriptor} {target : CallTarget}
    (gives : (builtinTarget c site i d).Gives s target s') :
    ∃ m plan sig, s' = { s with externs := addExtern s.externs ⟨m.symbol, sig⟩ } ∧
      c.registry.implementationFor? d .fixedPoint = some m ∧
      ReturnPlan.classify (d.prototype.flatten .fixedPoint).returnTypes c.target = .ok plan ∧
      ReturnPlan.legalize (d.prototype.flatten .fixedPoint) c.target = .ok sig ∧
      target = ⟨m.symbol, sig, plan⟩ := by
  unfold builtinTarget at gives
  split at gives
  · cases givesFail gives
  · rename_i m fixed
    simp only at gives
    split at gives
    · rename_i plan sig classified legal
      simp only [declare, givesBind, givesModify, givesPure] at gives
      obtain ⟨_, _, state, rfl, rfl⟩ := gives
      refine ⟨m, plan, sig, ?_, fixed, classified, legal, rfl⟩
      rw [state, addExtern]
      split <;> rfl
    · cases givesMalformed gives
    · cases givesMalformed gives

theorem resolveGives {target : CallTarget} (gives : (resolveCallee c site i).Gives s target s') :
    s' = { s with
      externs := (redirect? c site.program i.callee).toList.foldl addExtern s.externs } ∧
    Resolves c site i.callee target ∧ Linked c site s'.externs i.callee := by
  unfold resolveCallee at gives
  split at gives
  · rename_i sig own
    obtain ⟨rfl, rfl⟩ := givesPure.mp gives
    have named : (site.program.functionNamed? i.callee).isSome := by
      cases missing : site.program.functionNamed? i.callee with
      | none => rw [foreignSignature.mpr missing] at own; cases own
      | some f => rfl
    refine ⟨by rw [ownRedirect named]; rfl, .function own, fun foreign => ?_⟩
    rw [own] at foreign
    cases foreign
  · rename_i foreign
    split at gives
    · rename_i hit found
      obtain ⟨m, plan, sig, state, fixed, classified, legal, rfl⟩ := builtinGives gives
      have redirected : redirect? c site.program i.callee = some ⟨m.symbol, sig⟩ :=
        redirectIff.mpr ⟨foreignSignature.mp foreign, hit, m, sig, found, fixed, legal, rfl⟩
      refine ⟨by rw [redirected]; exact state, .builtin foreign found fixed classified legal, ?_⟩
      intro _ hit' m' found' fixed'
      rw [found] at found'
      cases found'
      rw [fixed] at fixed'
      cases fixed'
      rw [state]
      exact addedPresent s.externs _
    · rename_i unknown
      split at gives
      · rename_i e declared
        obtain ⟨declared, floatFree⟩ := Option.filter_eq_some_iff.mp declared
        obtain ⟨rfl, rfl⟩ := givesPure.mp gives
        refine ⟨by rw [unknownRedirect unknown]; rfl,
          .outside foreign unknown declared (by simpa using floatFree), ?_⟩
        intro _ hit m found
        rw [unknown] at found
        cases found
      · cases givesFail gives

structure Targets (c : Config) (site : Site) (i : Instr) (s : PassState) (target : CallTarget)
    (s' : PassState) : Prop where
  resolves : Resolves c site i.callee target
  linked : Linked c site s'.externs i.callee
  steady : Steady c site s'
  emission : s'.emission = s.emission
  values : s'.values = s.values
  externs : s'.externs = (redirect? c site.program i.callee).toList.foldl addExtern s.externs

theorem targetGives {target : CallTarget} (steady : Steady c site s)
    (gives : (callTarget c site i).Gives s target s') : Targets c site i s target s' := by
  simp only [callTarget, givesBind, givesGet] at gives
  obtain ⟨_, _, ⟨rfl, rfl⟩, gives⟩ := gives
  split at gives
  · rename_i found
    obtain ⟨rfl, rfl⟩ := givesPure.mp gives
    obtain ⟨resolves, linked⟩ := steady.targets _ _ found
    exact ⟨resolves, linked, steady, rfl, rfl, (linkedNeeds linked).symm⟩
  · rename_i before _ absent
    simp only [givesBind, givesModify, givesPure] at gives
    obtain ⟨_, mid, resolved, _, _, rfl, rfl, rfl⟩ := gives
    obtain ⟨rfl, resolves, linked⟩ := resolveGives resolved
    have needed : ∀ e ∈ (redirect? c site.program i.callee).toList, Foreign c site.program e :=
      fun e member => redirectForeign (Option.mem_toList.mp member)
    have more : Declares c site.program before.externs _ := allAddedDeclare needed
    refine ⟨resolves, linked, ⟨steady.labels, steady.slots, fun callee other found => ?_⟩, rfl, rfl,
      rfl⟩
    rw [lookupInsertNew] at found
    split at found
    · rename_i same
      simp only [absent, Option.getD_none, Option.some.injEq] at found
      rw [eq_of_beq same, ← found]
      exact ⟨resolves, linked⟩
    · obtain ⟨resolves', linked'⟩ := steady.targets callee other found
      exact ⟨resolves', linkedMore linked' (declaresMore more)⟩

theorem operandSame {s s' : PassState} {t : Encoding} (values : s'.values = s.values) :
    s'.operand t = s.operand t := by
  funext v
  cases v <;> simp [PassState.operand, values]

theorem callGives (steady : Steady c site s) (op : i.op = .call)
    (gives : (call c site i).Gives s u s') :
    ∃ x names, Lowered c site (s.operand site.encoding) i x names ∧ Leads c site i s x names s' := by
  simp only [call, givesIte, givesMalformed, and_false, false_or, givesBind] at gives
  obtain ⟨named, target, mid, resolved, gives⟩ := gives
  have targets := targetGives steady resolved
  simp only [givesOperands, givesEmit, givesKeepTemps] at gives
  obtain ⟨args, results, vs, mid, ⟨rfl, rfl⟩, _, _, ⟨-, rfl⟩, rfl⟩ := gives
  have same : mid.operands site.encoding i.operands = s.operands site.encoding i.operands := by
    simp only [PassState.operands, operandSame targets.values]
  refine ⟨_, _, .call op targets.resolves (by simpa using args) (by simpa using results),
    ?_, ?_, ?_, ?_, ?_⟩
  · rw [keepNames, same, targets.emission, StateT.run_bind]
    rfl
  · rw [keepNames, keptNames, List.map_map, ← targets.values]
    rfl
  · rw [keepNames]
    exact targets.steady.carry rfl rfl rfl rfl
  · rw [keepNames, callNeeds op]
    exact targets.externs
  · rw [keepNames]
    exact fun _ => targets.linked

theorem passThroughGives (steady : Steady c site s) (kept : copied i.op = true)
    (gives : (passThrough site i).Gives s u s') :
    ∃ x names, Lowered c site (s.operand site.encoding) i x names ∧ Leads c site i s x names s' := by
  have plain : i.op ≠ .select := by
    intro select
    rw [select] at kept
    cases kept
  rw [passThrough, if_neg plain] at gives
  exact copyGives steady kept gives

theorem controlGives (steady : Steady c site s) (kept : copied i.op = true)
    (gives : (control site i).Gives s u s') :
    ∃ x names, Lowered c site (s.operand site.encoding) i x names ∧ Leads c site i s x names s' := by
  simp only [control, givesIte, givesMalformed, and_false, false_or] at gives
  exact copyGives steady kept gives.2

theorem instrGives (steady : Steady c site s) (gives : (instr c site i).Gives s u s') :
    ∃ x names, Lowered c site (s.operand site.encoding) i x names ∧ Leads c site i s x names s' := by
  unfold instr at gives
  cases op : i.op <;> simp only [op] at gives
  case iconst => exact constantGives steady (.inl op) gives
  case fconst => exact constantGives steady (.inr op) gives
  case select => exact selectGives steady op gives
  case float => exact floatArithGives steady op gives
  case fcmp => exact floatCompareGives steady op gives
  case frem => cases givesUnsupported gives
  case sitofp => exact conversionGives steady (.inl op) gives
  case fptosi => exact conversionGives steady (.inr (.inl op)) gives
  case stackaddr => exact stackaddrGives steady op gives
  case load => exact loadGives steady op gives
  case store => exact storeGives steady op gives
  case call => exact callGives steady op gives
  case fpext | fptrunc | tofixed | fromfixed =>
    exact conversionGives steady (.inr (.inr (by rw [op]; rfl))) gives
  case br | cbr | ret => exact controlGives steady (by rw [op]; rfl) gives
  all_goals exact passThroughGives steady (by rw [op]; rfl) gives

end Steps
end FixedIL.Lowering
