import FixedIL.Lowering.Pass
import FixedIL.Proofs.PassRuns

/-!
Lowering only ever adds to the externs of a program. What it makes of a function is the same
whatever has been declared before, and of the program it reads nothing but the functions and
externs that names stand for.
-/
namespace FixedIL

open PassM

def PassState.withExterns (s : PassState) (externs : List Extern) : PassState :=
  { s with externs := externs }

def PassM.Blind {α : Type} (x : PassM α) : Prop :=
  ∀ s a s' externs, x.Gives s a s' →
    ∃ externs', x.Gives (s.withExterns externs) a (s'.withExterns externs')

namespace PassM

variable {α β : Type} {x y : PassM α}

theorem blindPure {a : α} : Blind (pure a : PassM α) := by
  intro s b s' externs gives
  obtain ⟨rfl, rfl⟩ := givesPure.mp gives
  exact ⟨externs, givesPure.mpr ⟨rfl, rfl⟩⟩

theorem blindFail {e : LoweringError} : Blind (fail e : PassM α) :=
  fun _ _ _ _ gives => absurd gives givesFail

theorem blindMalformed {site : Site} {i : Instr} {why : Malformed} :
    Blind (malformed site i why : PassM α) := blindFail

theorem blindBind {g : α → PassM β} (first : Blind x) (rest : ∀ a, Blind (g a)) :
    Blind (x >>= g) := by
  intro s b s' externs gives
  obtain ⟨a, mid, head, tail⟩ := givesBind.mp gives
  obtain ⟨externs', head⟩ := first s a mid externs head
  obtain ⟨externs'', tail⟩ := rest a mid b s' externs' tail
  exact ⟨externs'', givesBind.mpr ⟨a, _, head, tail⟩⟩

theorem blindRead {g : PassState → PassM α} (same : ∀ s externs, g (s.withExterns externs) = g s)
    (each : ∀ s, Blind (g s)) : Blind (get >>= g) := by
  intro s a s' externs gives
  obtain ⟨_, _, head, tail⟩ := givesBind.mp gives
  obtain ⟨rfl, rfl⟩ := givesGet.mp head
  obtain ⟨externs', tail⟩ := each _ _ a s' externs tail
  refine ⟨externs', givesBind.mpr ⟨_, _, givesGet.mpr ⟨rfl, rfl⟩, ?_⟩⟩
  rwa [same]

theorem blindModify {h : PassState → PassState}
    (same : ∀ s externs, ∃ externs', h (s.withExterns externs) = (h s).withExterns externs') :
    Blind (modify h : PassM Unit) := by
  intro s u s' externs gives
  obtain rfl := givesModify.mp gives
  obtain ⟨externs', moved⟩ := same s externs
  exact ⟨externs', givesModify.mpr moved.symm⟩

theorem blindEmit {x : Emit α} : Blind (emit x) := by
  intro s a s' externs gives
  obtain ⟨rfl, rfl⟩ := givesEmit.mp gives
  exact ⟨externs, givesEmit.mpr ⟨rfl, rfl⟩⟩

theorem blindIte {c : Prop} [Decidable c] (yes : Blind x) (no : Blind y) :
    Blind (if c then x else y) := by
  split
  · exact yes
  · exact no

theorem blindMapM {g : α → PassM β} (each : ∀ a, Blind (g a)) (as : List α) :
    Blind (as.mapM g) := by
  induction as with
  | nil => exact blindPure
  | cons a rest ih =>
    rw [List.mapM_cons]
    exact blindBind (each a) fun b => blindBind ih fun bs => blindPure

theorem blindForIn {γ : Type} {g : γ → PUnit → PassM (ForInStep PUnit)}
    (each : ∀ k u, Blind (g k u)) (ks : List γ) (u : PUnit) : Blind (forIn ks u g) := by
  induction ks generalizing u with
  | nil => exact blindPure
  | cons k rest ih =>
    rw [List.forIn_cons]
    refine blindBind (each k u) fun next => ?_
    cases next with
    | done => exact blindPure
    | yield u' => exact ih u'

theorem foldExterns {γ : Type} {h : PassState → γ → PassState}
    (each : ∀ s k externs, h (s.withExterns externs) k = (h s k).withExterns externs) (ks : List γ)
    (s : PassState) (externs : List Extern) :
    ks.foldl h (s.withExterns externs) = (ks.foldl h s).withExterns externs := by
  induction ks generalizing s with
  | nil => rfl
  | cons k rest ih => rw [List.foldl_cons, each, ih, List.foldl_cons]

theorem blindMapValue {id : TempId} {v : Value} : Blind (mapValue id v) :=
  blindModify fun _ externs => ⟨externs, rfl⟩

theorem blindKeepTemps {ids : List TempId} : Blind (keepTemps ids) :=
  blindModify fun s externs => ⟨externs, foldExterns (fun _ _ _ => rfl) ids s externs⟩

theorem operandExterns (s : PassState) (externs : List Extern) (t : Encoding) :
    (s.withExterns externs).operand t = s.operand t := by
  funext v
  cases v <;> rfl

theorem blindOperand {site : Site} {v : Value} : Blind (operand site v) :=
  blindRead (fun s externs => by rw [operandExterns]) fun _ => blindPure

theorem blindOperands {site : Site} {vs : List Value} : Blind (operands site vs) :=
  blindRead (fun s externs => by rw [PassState.operands, PassState.operands, operandExterns])
    fun _ => blindPure

theorem blindRedefine {i : Instr} {t : Temp} {op : Opcode} {type : Ty} {vs : List Value} :
    Blind (redefine i t op type vs) :=
  blindBind blindEmit fun _ => blindBind blindMapValue fun _ => blindPure

theorem blindCopy {site : Site} {i : Instr} : Blind (copy site i) := by
  have label (l : String) : Blind (targetLabel site i l) := by
    refine blindRead (fun _ _ => rfl) fun s => ?_
    split
    · exact blindPure
    · exact blindMalformed
  have slots (vs : List Value) : Blind (slotOperands site i vs) := by
    refine blindRead (fun _ _ => rfl) fun s => ?_
    split
    · exact blindPure
    · exact blindMalformed
  refine blindBind blindOperands fun vs => ?_
  refine blindBind (blindMapM (fun _ => blindOperands) _) fun branchArgs => ?_
  refine blindBind (blindMapM label _) fun labels => ?_
  split
  · exact blindBind (slots vs) fun _ => blindBind blindKeepTemps fun _ => blindEmit
  · exact blindBind blindPure fun _ => blindBind blindKeepTemps fun _ => blindEmit

end PassM

namespace Lowering

variable {c : Config} {site : Site} {i : Instr}

theorem blindShape {operands results : Nat} : Blind (expectShape site i operands results) :=
  blindIte blindMalformed (blindIte blindMalformed blindPure)

theorem blindSequence {q : TempId → Emit Value} : Blind (bySequence i q) := by
  unfold bySequence
  split
  · exact blindBind (blindBind blindEmit fun _ => blindPure) fun _ => blindMapValue
  · exact blindPure

theorem blindConstant : Blind (constant site i) := by
  refine blindBind blindShape fun _ => ?_
  split
  · refine blindIte (blindIte blindMalformed (blindBind blindRedefine fun _ => blindPure)) ?_
    split
    · exact blindMalformed
    · exact blindBind blindRedefine fun _ => blindPure
  · exact blindPure

theorem blindRedefineAll {op : Opcode} : Blind (do
    for t in i.results.take 1 do
      let _ ← redefine i t op (site.encoding.mapTy i.type) (← operands site i.operands) :
        PassM Unit) := by
  refine blindBind (blindForIn (fun t _ => ?_) _ _) fun _ => blindPure
  exact blindBind blindOperands fun _ => blindBind blindRedefine fun _ => blindPure

theorem blindPassThrough : Blind (passThrough site i) :=
  blindIte (blindBind blindShape fun _ => blindRedefineAll) blindCopy

theorem blindFloatArith {op : FloatOp} : Blind (floatArith site i op) := by
  refine blindBind blindShape fun _ => blindIte blindMalformed ?_
  refine blindBind blindOperands fun vs => ?_
  cases vs with
  | nil => exact blindPure
  | cons => exact blindSequence

theorem blindFloatCompare {cmp : FloatCompare} : Blind (floatCompare site i cmp) := by
  refine blindBind blindShape fun _ => blindBind blindOperands fun vs => ?_
  split
  · exact blindSequence
  · exact blindPure

theorem blindConversion : Blind (conversion site i) := by
  have ofInt (v : Value) : Blind (ofInt site i v) := by
    unfold Lowering.ofInt
    split
    · exact blindBind blindRedefine fun _ => blindPure
    · split
      · exact blindMalformed
      · exact blindBind blindOperand fun _ => blindSequence
  have toInt (v : Value) : Blind (toInt site i v) :=
    blindIte blindMalformed (blindBind blindOperand fun _ => blindSequence)
  have sameNumber (v : Value) : Blind (sameNumber site i v) := by
    unfold Lowering.sameNumber
    split
    · exact blindBind blindOperand fun _ => blindMapValue
    · exact blindPure
  refine blindBind blindShape fun _ => ?_
  split
  · split
    · exact ofInt _
    · exact toInt _
    · exact sameNumber _
  · exact blindPure

theorem blindMemory : Blind (memory site i) := by
  unfold memory
  split
  · exact blindBind blindShape fun _ => blindCopy
  · exact blindBind blindShape fun _ => blindRedefineAll
  · exact blindBind blindShape fun _ => blindBind blindOperands fun _ => blindEmit
  · exact blindFail

theorem blindTarget : Blind (callTarget c site i) := by
  have declared (symbol : String) (sig : Signature) : Blind (declare symbol sig) := by
    refine blindModify fun s externs => ?_
    split <;> split <;> exact ⟨_, rfl⟩
  have builtin (d : Builtin.Descriptor) : Blind (builtinTarget c site i d) := by
    unfold builtinTarget
    split
    · exact blindFail
    · dsimp only
      split
      · exact blindBind (declared _ _) fun _ => blindPure
      · exact blindMalformed
      · exact blindMalformed
  have resolved : Blind (resolveCallee c site i) := by
    unfold resolveCallee
    split
    · exact blindPure
    · split
      · exact builtin _
      · split
        · exact blindPure
        · exact blindFail
  refine blindRead (fun _ _ => rfl) fun s => ?_
  split
  · exact blindPure
  · refine blindBind resolved fun target => ?_
    exact blindBind (blindModify fun _ externs => ⟨externs, rfl⟩) fun _ => blindPure

theorem blindCall : Blind (call c site i) := by
  refine blindIte blindMalformed (blindBind blindTarget fun target => ?_)
  refine blindIte blindMalformed (blindIte blindMalformed ?_)
  exact blindBind blindOperands fun _ => blindBind blindEmit fun _ => blindKeepTemps

theorem blindInstr : Blind (instr c site i) := by
  unfold instr
  cases i.op with
  | iconst | fconst => exact blindConstant
  | float => exact blindFloatArith
  | fcmp => exact blindFloatCompare
  | frem => exact blindFail
  | sitofp | fptosi | fpext | fptrunc | tofixed | fromfixed => exact blindConversion
  | stackaddr | load | store => exact blindMemory
  | call => exact blindCall
  | br | cbr | ret => exact blindIte blindMalformed blindCopy
  | _ => exact blindPassThrough

section Functions

variable {p q : Program} {f : Function} {sig : Signature}

theorem repeatedExterns (s : PassState) (externs : List Extern) (seen ids : List TempId) :
    Pass.repeatedResult? (s.withExterns externs) seen ids = Pass.repeatedResult? s seen ids := by
  induction ids generalizing seen with
  | nil => rfl
  | cons id rest ih =>
    rw [Pass.repeatedResult?, Pass.repeatedResult?, ih]
    rfl

theorem blindPassInstr : Blind ((pass c).instr site i) := by
  refine blindBind blindEmit fun _ => blindRead (fun s externs => ?_) fun s => ?_
  · rw [repeatedExterns]
  · split
    · exact blindMalformed
    · exact blindInstr

theorem blindPassInstrs (is : List Instr) : Blind ((pass c).instrs site is) := by
  induction is with
  | nil => exact blindPure
  | cons i rest ih => exact blindBind blindPassInstr fun _ => ih

theorem blindPassBlock {b : Block} : Blind ((pass c).block site b) :=
  blindBind blindEmit fun _ => blindBind (blindPassInstrs _) fun _ =>
    blindRead (fun _ _ => rfl) fun _ => blindPure

theorem blindOpenBlocks (bs : List Block) : Blind (Pass.openBlocks f bs) := by
  have params (b : Block) (ts : List Temp) : Blind (Pass.defineParams f b ts) := by
    induction ts with
    | nil => exact blindPure
    | cons t rest ih =>
      exact blindRead (fun _ _ => rfl) fun s =>
        blindIte blindFail (blindBind blindMapValue fun _ => ih)
  induction bs with
  | nil => exact blindPure
  | cons b rest ih =>
    exact blindBind (params b _) fun _ =>
      blindBind (blindModify fun _ externs => ⟨externs, rfl⟩) fun _ => ih

theorem resolveExterns (s : PassState) (externs : List Extern) (t : Encoding) (hops : Nat) :
    Pass.resolve (s.withExterns externs) t hops = Pass.resolve s t hops := by
  induction hops with
  | zero => rfl
  | succ hops ih =>
    funext v
    rw [Pass.resolve, Pass.resolve, operandExterns, ih]

theorem blindFunction : Blind ((pass c).function p f sig) := by
  have slots : Blind (Pass.openSlots f) :=
    blindBind (blindModify fun s externs => ⟨externs, foldExterns (fun _ _ _ => rfl) _ s externs⟩)
      fun _ => blindEmit
  refine blindBind (blindOpenBlocks _) fun _ => blindBind slots fun _ => ?_
  refine blindBind blindEmit fun _ => blindBind (blindMapM (fun _ => blindPassBlock) _) fun bs => ?_
  refine blindRead (fun s externs => ?_) fun _ => blindPure
  have block : Pass.resolveBlock (s.withExterns externs) = Pass.resolveBlock s := by
    funext t hops b
    rw [Pass.resolveBlock, Pass.resolveBlock]
    unfold Pass.resolveInstr
    rw [resolveExterns]
  rw [block]
  rfl

structure Alike (p q : Program) : Prop where
  functions : p.functionNamed? = q.functionNamed?
  externs : p.externNamed? = q.externNamed?

theorem alikeSignature (alike : Alike p q) :
    ((pass c).site p f).signature? = ((pass c).site q f).signature? := by
  funext name
  exact congrArg (Option.map _) (congrFun alike.functions name)

theorem alikeInstr (alike : Alike p q) :
    instr c ((pass c).site p f) i = instr c ((pass c).site q f) i := by
  have resolved : resolveCallee c ((pass c).site p f) i =
      resolveCallee c ((pass c).site q f) i := by
    have declared : ((pass c).site p f).program.externNamed? i.callee =
        ((pass c).site q f).program.externNamed? i.callee := congrFun alike.externs i.callee
    rw [resolveCallee, resolveCallee, alikeSignature alike, declared]
    rfl
  have called : call c ((pass c).site p f) i = call c ((pass c).site q f) i := by
    rw [call, call, callTarget, callTarget, resolved]
    rfl
  unfold instr
  cases i.op <;> first | exact called | rfl

theorem alikeFunction (alike : Alike p q) :
    (pass c).function p f sig = (pass c).function q f sig := by
  have instrs (is : List Instr) :
      (pass c).instrs ((pass c).site p f) is = (pass c).instrs ((pass c).site q f) is := by
    induction is with
    | nil => rfl
    | cons i rest ih =>
      have head : (pass c).instr ((pass c).site p f) i = (pass c).instr ((pass c).site q f) i := by
        have convert : (pass c).convert ((pass c).site p f) i =
            (pass c).convert ((pass c).site q f) i := alikeInstr alike
        simp only [Pass.instr, convert]
        rfl
      rw [Pass.instrs, Pass.instrs, head, ih]
  have blocks : (pass c).block ((pass c).site p f) = (pass c).block ((pass c).site q f) := by
    funext b
    rw [Pass.block, Pass.block, instrs]
  simp only [Pass.function, blocks]

end Functions
end Lowering
end FixedIL
