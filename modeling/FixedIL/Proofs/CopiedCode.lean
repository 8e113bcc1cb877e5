import FixedIL.Proofs.LoweredFunction

/-!
What the identity pass makes of a program. Code is written again as it is, except that the slot of
a frame address becomes a number of 32 bits, and that functions of one name share the signature of
the first.
-/
namespace FixedIL.Copying

open PassM Lowering

def slotCopy (v : Value) : Value :=
  match v.intLiteral? with
  | some n => .int n.toUInt64.toUInt32.toUInt64.toInt64
  | none => v

def instrCopy (i : Instr) : Instr :=
  if i.op = .stackaddr then { i with operands := i.operands.modifyHead slotCopy } else i

def blockCopy (b : Block) : Block := { b with instrs := b.instrs.map instrCopy }

def functionCopy (p : Program) (f : Function) : Function :=
  { f with
    sig := ((p.functionNamed? f.name).getD f).sig
    blocks := f.blocks.map blockCopy }

def programCopy (p : Program) : Program := ⟨p.externs, p.functions.map (functionCopy p)⟩

structure Verbatim (s : PassState) : Prop where
  values : ∀ id v, s.values.lookup id = some v → v = .temp id
  labels : ∀ k v, s.labels.lookup k = some v → v = k
  slots : ∀ k v, s.slots.lookup k = some v → v = k

def Slotted (i : Instr) : Prop :=
  i.op = .stackaddr → ∃ v rest n, i.operands = v :: rest ∧ v.intLiteral? = some n ∧ 0 ≤ n

/-- Instructions have been written again, and nothing else has changed that outlives the
function. -/
structure Copies (is : List Instr) (s s' : PassState) : Prop where
  verbatim : Verbatim s'
  slotted : ∀ i ∈ is, Slotted i
  code : s'.emission.code = s.emission.code ++ is.map instrCopy
  slots : s'.emission.slots = s.emission.slots
  externs : s'.externs = s.externs

variable {p p' : Program} {f f' : Function} {site : Site} {i : Instr} {s s' : PassState} {u : Unit}

theorem verbatimOperand {t : Encoding} (same : ∀ id v, s.values.lookup id = some v → v = .temp id)
    {v : Value} (literal : ∀ x, v = .float x → t.mapLiteral x = v) : s.operand t v = v := by
  cases v with
  | temp id =>
    cases found : s.values.lookup id with
    | none => simp [PassState.operand, found]
    | some w => simp [PassState.operand, found, same id w found]
  | float x => exact literal x rfl
  | int | bool | null => rfl

theorem verbatimResolve {t : Encoding} (same : ∀ id v, s.values.lookup id = some v → v = .temp id)
    (hops : Nat) (v : Value) : Pass.resolve s t hops v = v := by
  cases v with
  | temp id => exact resolveFixed hops (verbatimOperand same nofun)
  | _ => exact resolveLiteral hops rfl

theorem verbatimBlock {t : Encoding} (same : ∀ id v, s.values.lookup id = some v → v = .temp id)
    (hops : Nat) (b : Block) : Pass.resolveBlock s t hops b = b := by
  have values : Pass.resolve s t hops = id := funext (verbatimResolve same hops)
  have instr (i : Instr) : Pass.resolveInstr s t hops i = i := by simp [Pass.resolveInstr, values]
  rw [Pass.resolveBlock, funext instr, List.map_id']

theorem verbatimOperands (verbatim : Verbatim s) (plain : site.encoding = Pass.identity.encoding)
    (vs : List Value) : s.operands site.encoding vs = vs := by
  have each (v : Value) : s.operand site.encoding v = v :=
    verbatimOperand verbatim.values fun x is => by rw [plain, is]; rfl
  rw [PassState.operands, funext each, List.map_id']

theorem keptVerbatim (same : ∀ id v, s.values.lookup id = some v → v = .temp id) :
    ∀ id v, (nameAll (keptNames i) s.values).lookup id = some v → v = .temp id := by
  intro id v found
  rcases nameAllFinds found with old | new
  · exact same id v old
  · obtain ⟨t, -, rfl, rfl⟩ := memKeptNames new
    rfl

theorem verbatimLists (verbatim : Verbatim s) (plain : site.encoding = Pass.identity.encoding)
    (lists : List (List Value)) : lists.map (s.operands site.encoding) = lists := by
  rw [funext (verbatimOperands verbatim plain), List.map_id']

theorem copyGives (verbatim : Verbatim s) (plain : site.encoding = Pass.identity.encoding)
    (gives : (copy site i).Gives s u s') :
    Slotted i ∧ s' = { s with
      emission := s.emission.push (instrCopy i)
      values := nameAll (keptNames i) s.values } := by
  by_cases address : i.op = .stackaddr
  · simp only [copy, address, if_true, givesBind, givesOperands, givesKeepTemps, givesEmit] at gives
    obtain ⟨_, _, ⟨rfl, rfl⟩, branchArgs, _, lists, labels, _, targets, values, _, slot, _, _, rfl,
      -, rfl⟩ := gives
    obtain ⟨rfl, rfl⟩ := branchArgsGive lists
    obtain ⟨rfl, rfl⟩ := labelsGive verbatim.labels targets
    obtain ⟨rfl, v, n, isHead, literal, nonneg, rfl⟩ := slotGives verbatim.slots slot
    obtain ⟨rest, operands⟩ := List.head?_eq_some_iff.mp isHead
    refine ⟨fun _ => ⟨v, rest, n, operands, literal, nonneg⟩, ?_⟩
    have copied : instrCopy i = { i with
        operands := .int n.toUInt64.toUInt32.toUInt64.toInt64 :: i.operands.drop 1 } := by
      simp [instrCopy, address, operands, slotCopy, literal]
    rw [verbatimOperands verbatim plain, verbatimLists verbatim plain, keepNames, copied, keptNames,
      List.map_map, address]
    rfl
  · simp only [copy, address, if_false, givesBind, givesOperands, givesPure, givesKeepTemps,
      givesEmit] at gives
    obtain ⟨_, _, ⟨rfl, rfl⟩, branchArgs, _, lists, labels, _, targets, _, _, ⟨rfl, rfl⟩, _, _,
      rfl, -, rfl⟩ := gives
    obtain ⟨rfl, rfl⟩ := branchArgsGive lists
    obtain ⟨rfl, rfl⟩ := labelsGive verbatim.labels targets
    refine ⟨fun is => absurd is address, ?_⟩
    have copied : instrCopy i = i := if_neg address
    rw [verbatimOperands verbatim plain, verbatimLists verbatim plain, keepNames, copied, keptNames,
      List.map_map]
    rfl

theorem placedCopy {e : Emission} (here : e.loc = i.loc) :
    e.placed (instrCopy i) = instrCopy i := by
  have loc : (instrCopy i).loc = e.loc := by
    unfold instrCopy
    split <;> exact here.symm
  unfold Emission.placed
  split
  · rfl
  · rw [← loc]

theorem instrGives (verbatim : Verbatim s) (plain : site.encoding = Pass.identity.encoding)
    (gives : (Pass.identity.instr site i).Gives s u s') : Copies [i] s s' := by
  simp only [Pass.instr, givesBind, givesEmit, givesGet] at gives
  obtain ⟨_, _, ⟨-, rfl⟩, _, _, ⟨rfl, rfl⟩, gives⟩ := gives
  split at gives
  · cases givesMalformed gives
  · have placed : Verbatim (located s i.loc) := ⟨verbatim.values, verbatim.labels, verbatim.slots⟩
    obtain ⟨slotted, rfl⟩ := copyGives placed plain gives
    refine ⟨⟨keptVerbatim verbatim.values, verbatim.labels, verbatim.slots⟩,
      fun j member => List.mem_singleton.mp member ▸ slotted, ?_, rfl, rfl⟩
    rw [Emission.pushCode, placedCopy rfl]
    rfl

theorem Copies.append {is is' : List Instr} {mid : PassState} (first : Copies is s mid)
    (second : Copies is' mid s') : Copies (is ++ is') s s' := by
  refine ⟨second.verbatim, ?_, ?_, second.slots.trans first.slots,
    second.externs.trans first.externs⟩
  · exact List.forall_mem_append.mpr ⟨first.slotted, second.slotted⟩
  · rw [second.code, first.code, List.append_assoc, List.map_append]

theorem copiesNone (verbatim : Verbatim s') (emission : s'.emission = s.emission)
    (externs : s'.externs = s.externs) : Copies [] s s' :=
  ⟨verbatim, List.forall_mem_nil _, by rw [emission, List.map_nil, List.append_nil],
    congrArg Emission.slots emission, externs⟩

theorem instrsGive {is : List Instr} (verbatim : Verbatim s)
    (plain : site.encoding = Pass.identity.encoding)
    (gives : (Pass.identity.instrs site is).Gives s u s') : Copies is s s' := by
  induction is generalizing s with
  | nil =>
    obtain ⟨-, rfl⟩ := givesPure.mp gives
    exact copiesNone verbatim rfl rfl
  | cons i rest ih =>
    simp only [Pass.instrs, givesBind] at gives
    obtain ⟨_, mid, head, tail⟩ := gives
    have first := instrGives verbatim plain head
    exact first.append (ih first.verbatim tail)

theorem blocksGive {bs bs' : List Block} (verbatim : Verbatim s)
    (plain : site.encoding = Pass.identity.encoding)
    (gives : (bs.mapM (Pass.identity.block site)).Gives s bs' s') :
    bs' = bs.map blockCopy ∧ Verbatim s' ∧ (∀ b ∈ bs, ∀ i ∈ b.instrs, Slotted i) ∧
      s'.emission.slots = s.emission.slots ∧ s'.externs = s.externs := by
  induction bs generalizing s bs' with
  | nil =>
    obtain ⟨rfl, rfl⟩ := givesPure.mp gives
    exact ⟨rfl, verbatim, List.forall_mem_nil _, rfl, rfl⟩
  | cons b rest ih =>
    rw [List.mapM_cons] at gives
    simp only [Pass.block, givesBind, givesEmit, givesGet, givesPure] at gives
    obtain ⟨_, mid, ⟨_, _, ⟨-, rfl⟩, _, _, copied, _, _, ⟨rfl, rfl⟩, rfl, rfl⟩,
      _, _, tail, rfl, rfl⟩ := gives
    have begun : Verbatim (cleared s) := ⟨verbatim.values, verbatim.labels, verbatim.slots⟩
    have copies := instrsGive begun plain copied
    obtain ⟨rfl, verbatim', slotted, slots, externs⟩ := ih copies.verbatim tail
    refine ⟨?_, verbatim', List.forall_mem_cons.mpr ⟨copies.slotted, slotted⟩,
      slots.trans copies.slots, externs.trans copies.externs⟩
    have params : b.params.map (fun t => { t with type := Pass.identity.encoding.mapTy t.type }) =
        b.params := List.map_id _
    rw [List.map_cons, params, copies.code]
    rfl

theorem paramsGive {b : Block} {ts : List Temp} (verbatim : Verbatim s)
    (gives : (Pass.defineParams f b ts).Gives s u s') : Copies [] s s' := by
  induction ts generalizing s with
  | nil =>
    obtain ⟨-, rfl⟩ := givesPure.mp gives
    exact copiesNone verbatim rfl rfl
  | cons t rest ih =>
    simp only [Pass.defineParams, givesBind, givesGet, givesIte, givesFail, and_false, false_or,
      givesMapValue] at gives
    obtain ⟨_, s, ⟨rfl, rfl⟩, -, _, _, rfl, gives⟩ := gives
    have mapped : Copies [] s (s.mapValue t.id (.temp t.id)) :=
      copiesNone ⟨keyedEntries verbatim.values t.id, verbatim.labels, verbatim.slots⟩ rfl rfl
    exact mapped.append (ih mapped.verbatim gives)

theorem openBlocksGive {bs : List Block} (verbatim : Verbatim s)
    (gives : (Pass.openBlocks f bs).Gives s u s') : Copies [] s s' := by
  induction bs generalizing s with
  | nil =>
    obtain ⟨-, rfl⟩ := givesPure.mp gives
    exact copiesNone verbatim rfl rfl
  | cons b rest ih =>
    simp only [Pass.openBlocks, givesBind, givesModify] at gives
    obtain ⟨_, mid, params, _, _, rfl, gives⟩ := gives
    have first := paramsGive verbatim params
    have labelled : Copies [] mid (mid.mapLabel b.label b.label) :=
      copiesNone ⟨first.verbatim.values, keyedEntries first.verbatim.labels b.label,
        first.verbatim.slots⟩ rfl rfl
    exact (first.append labelled).append (ih labelled.verbatim gives)

theorem slotsCopied (slots : List Nat) (verbatim : Verbatim s) :
    Copies [] s (slots.foldl (fun s k => s.mapSlot k.toUInt32 k.toUInt32) s) := by
  induction slots generalizing s with
  | nil => exact copiesNone verbatim rfl rfl
  | cons k rest ih =>
    have mapped : Copies [] s (s.mapSlot k.toUInt32 k.toUInt32) :=
      copiesNone ⟨verbatim.values, verbatim.labels, keyedEntries verbatim.slots k.toUInt32⟩ rfl rfl
    exact mapped.append (ih mapped.verbatim)

theorem openSlotsGive (verbatim : Verbatim s) (gives : (Pass.openSlots f).Gives s u s') :
    Verbatim s' ∧ s'.emission.slots = f.slots ∧ s'.externs = s.externs := by
  simp only [Pass.openSlots, givesBind, givesModify, givesEmit] at gives
  obtain ⟨_, _, rfl, -, rfl⟩ := gives
  have numbered := slotsCopied (List.range f.slots.length) verbatim
  exact ⟨⟨numbered.verbatim.values, numbered.verbatim.labels, numbered.verbatim.slots⟩, rfl,
    numbered.externs⟩

theorem reservedSlots (id : TempId) (e : Emission) :
    ((Emit.reserveBelow id).run e).2.slots = e.slots := by
  change (if e.nextTemp < id then { e with nextTemp := id } else e).slots = e.slots
  split <;> rfl

theorem functionGives {sig : Signature} {externs : List Extern}
    (gives : (Pass.identity.function p f sig).Gives (Pass.begun externs) f' s') :
    f' = { f with sig := sig, blocks := f.blocks.map blockCopy } ∧
      (∀ b ∈ f.blocks, ∀ i ∈ b.instrs, Slotted i) ∧ s'.externs = externs := by
  simp only [Pass.function, givesBind, givesEmit, givesGet, givesPure] at gives
  obtain ⟨_, opened, blocks, _, framed, slots, _, _, ⟨-, rfl⟩, bs, _, copied, _, _, ⟨rfl, rfl⟩, rfl,
    rfl⟩ := gives
  have blank : Verbatim (Pass.begun externs) := by
    refine ⟨fun id v found => ?_, fun l l' found => ?_, fun k k' found => ?_⟩ <;> cases found
  have opens := openBlocksGive blank blocks
  obtain ⟨verbatim, own, kept⟩ := openSlotsGive opens.verbatim slots
  have begins : Verbatim { framed with
      emission := ((Emit.reserveBelow f.nextTemp).run framed.emission).2 } :=
    ⟨verbatim.values, verbatim.labels, verbatim.slots⟩
  obtain ⟨rfl, verbatim', slotted, slots', externs'⟩ := blocksGive begins rfl copied
  refine ⟨?_, slotted, externs'.trans (kept.trans opens.externs)⟩
  rw [funext (verbatimBlock verbatim'.values _), List.map_id', slots', reservedSlots, own]

theorem sigCopied (member : f ∈ p.functions) :
    Pass.identity.sigFor p f = ((p.functionNamed? f.name).getD f).sig := by
  obtain ⟨g, -, -, first⟩ := Program.namedFirst member
  have same : g.sig.mapTypes id = g.sig := by simp [Signature.mapTypes]
  have own : (Pass.identity.site p f).signature? f.name = some (g.sig.mapTypes id) :=
    congrArg (Option.map _) first
  rw [Pass.sigFor, own, first]
  exact same

theorem functionsCopied {fs fs' : List Function} {externs externs' : List Extern}
    (within : ∀ f ∈ fs, f ∈ p.functions)
    (runs : Pass.Runs Pass.identity p fs externs fs' externs') :
    fs' = fs.map (functionCopy p) ∧
      (∀ f ∈ fs, ∀ b ∈ f.blocks, ∀ i ∈ b.instrs, Slotted i) ∧ externs' = externs := by
  induction runs with
  | nil => exact ⟨rfl, List.forall_mem_nil _, rfl⟩
  | cons gives tail ih =>
    obtain ⟨rfl, slotted, same⟩ := functionGives gives
    obtain ⟨rfl, slotted', same'⟩ := ih fun f member => within f (List.mem_cons_of_mem _ member)
    refine ⟨?_, List.forall_mem_cons.mpr ⟨slotted, slotted'⟩, same'.trans same⟩
    rw [List.map_cons, sigCopied (within _ List.mem_cons_self)]
    rfl

theorem runCopies (run : Pass.identity.run p = .ok p') :
    p' = programCopy p ∧ ∀ f ∈ p.functions, ∀ b ∈ f.blocks, ∀ i ∈ b.instrs, Slotted i := by
  obtain ⟨_, kept, runs⟩ := Pass.runGives.mp run
  cases kept
  obtain ⟨functions, slotted, externs⟩ := functionsCopied (fun _ member => member) runs
  obtain ⟨externs', functions'⟩ := p'
  cases functions
  cases externs
  exact ⟨rfl, slotted⟩

end FixedIL.Copying
