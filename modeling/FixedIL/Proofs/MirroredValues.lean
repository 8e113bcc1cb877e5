import FixedIL.Proofs.LiteralReads
import FixedIL.Proofs.MirroredFrames

/-!
Operands side by side. Lowered code reads another value under another type where an operand is the
result of a cast, and so what is computed may differ for the few operations that look at types.
-/
namespace FixedIL

def Value.NamesLiteral (f : Function) (v : Value) : Prop :=
  ∃ id u, v = .temp id ∧ Lowering.Same f v u ∧ u.isTemp = false

def IntCompare.readsWidth : IntCompare → Bool
  | .ult | .ule | .ugt | .uge => true
  | _ => false

/-- Nothing that is read without sign has lost its width: lowered code reads literals where the
source reads temporaries of 32 bits. -/
structure Instr.WidthKept (f : Function) (i : Instr) : Prop where
  widened : i.op = .zext → Word.isNarrow i.type = false → ∀ v ∈ i.operands, v.isTemp = true →
    ∀ u, Lowering.Same f v u → ∀ w ∈ u.encodedWord?, Word.unsigned .i32 w = w
  compared : ∀ cmp, i.op = .icmp cmp → cmp.readsWidth = true → ∀ v,
    i.operands.find? Value.isTemp = some v → v.NamesLiteral f → ∀ u ∈ i.operands, u.Number f

theorem Instr.widthKept {f : Function} {i : Instr} (widened : i.op ≠ .zext)
    (compared : ∀ cmp, i.op ≠ .icmp cmp) : i.WidthKept f :=
  ⟨fun is => absurd is widened, fun cmp is => absurd is (compared cmp)⟩

namespace Word

variable {a b : Word}

theorem unsignedOrder (left : a.Fits .i32) (right : b.Fits .i32) :
    unsigned .i32 a < unsigned .i32 b ↔ a < b := by
  have split {w : Word} (fits : w.Fits .i32) : (w.toNat < 2 ^ 31 ∧ (unsigned .i32 w).toNat = w.toNat) ∨
      (2 ^ 64 - 2 ^ 31 ≤ w.toNat ∧ (unsigned .i32 w).toNat + (2 ^ 64 - 2 ^ 32) = w.toNat) := by
    have cut : (unsigned .i32 w).toNat = w.toNat % 2 ^ 32 := by
      rw [unsignedI32, UInt32.toNat_toUInt64, UInt64.toNat_toUInt32]
    have number := toIntSplit w
    obtain ⟨low, high⟩ := fits
    have bound := w.toNat_lt
    split at number <;> omega
  rw [UInt64.lt_iff_toNat_lt, UInt64.lt_iff_toNat_lt]
  have := split left
  have := split right
  have := b.toNat_lt
  omega

end Word

namespace IntCompare

variable {c : IntCompare} {t u : Ty} {a b : Word}

theorem evalAnyWidth (plain : c.readsWidth = false) : c.eval t a b = c.eval u a b := by
  cases c <;> first | rfl | cases plain

theorem evalNumbers (left : a.Fits .i32) (right : b.Fits .i32) :
    c.eval .i32 a b = c.eval .i64 a b := by
  have strict := Word.unsignedOrder left right
  have strict' := Word.unsignedOrder right left
  cases c with
  | ult => exact decide_eq_decide.mpr strict
  | ugt => exact decide_eq_decide.mpr strict'
  | ule =>
    refine decide_eq_decide.mpr ?_
    rw [← UInt64.not_lt, strict', ← UInt64.not_lt]
    rfl
  | uge =>
    refine decide_eq_decide.mpr ?_
    rw [← UInt64.not_lt, strict, ← UInt64.not_lt]
    rfl
  | _ => rfl

end IntCompare

namespace Lowering

variable {c : Config} {p p' : Program} {fn : Function} {f f' : Frame} {i j : Instr} {u v : Value}
  {id : TempId}

section Names

variable (sound : fn.violation? p = none) (typed : ∀ i ∈ fn.code, i.Typed p fn)

include typed

theorem castNumber (casts : Casts fn id v) : v.Number fn := by
  obtain ⟨b, block, i, instr, cast, operands, -⟩ := casts
  have reads : i.op.readsNumbers = true := by
    revert cast
    cases i.op <;> intro cast <;> first | rfl | cases cast
  exact (typed i (List.mem_flatMap.mpr ⟨b, block, instr⟩)).numbers reads v
    (operands ▸ List.mem_cons_self)

theorem nameNumber (same : Same fn v u) : u = v ∨ u.Number fn := by
  induction same with
  | here => exact .inl rfl
  | cast casts same ih =>
    refine .inr (ih.elim (fun is => ?_) id)
    rw [is]
    exact castNumber typed casts

include sound

theorem castStored (casts : IsCast fn id) : (Frame.tempType fn id).stored = .i32 := by
  obtain ⟨v, b, block, i, instr, cast, operands, result⟩ := casts
  obtain ⟨t, results, is⟩ := List.map_eq_singleton_iff.mp result
  have member : t ∈ i.results := results ▸ List.mem_cons_self
  have own := typed i (List.mem_flatMap.mpr ⟨b, block, instr⟩)
  have plain : i.op.category ≠ .call ∧ i.op.category ≠ .control := by
    revert cast
    cases i.op <;> simp [sameNumberCast, Opcode.category]
  rw [← is, Function.tempTypeOnce (WellFormed.definesOnce sound) (Function.memTemps block instr member),
    (WellFormed.definedType (WellFormed.instrSound sound block instr) plain member).2]
  have yields := own.yields
  revert cast yields
  cases i.op with
  | tofixed =>
    intro _ yields
    rw [of_decide_eq_true yields]
    rfl
  | fpext | fptrunc | fromfixed => exact fun _ yields => Ty.storedFloat yields
  | _ =>
    intro cast
    cases cast

end Names

/-- What a program is like whose lowering can be held against it: uses are dominated, words stay
what their types say, and there are fewer frame slots than addresses. -/
structure Comparable (c : Config) (p p' : Program) : Prop where
  run : (pass c).run p = .ok p'
  runnable : p.Runnable
  roomy : ∀ f ∈ p.functions, ∀ f' ∈ p'.functions, f'.name = f.name → Roomy f f'
  dominated : ∀ f ∈ p.functions, f.UsesDominated
  typed : p.Typed
  widths : ∀ f ∈ p.functions, ∀ i ∈ f.code, i.WidthKept f
  declares : DeclaresBuiltins c p
  few : ∀ f' ∈ p'.functions, (maxCallDepth + 1) * f'.slots.length < UInt32.size

theorem Comparable.lowered (known : Comparable c p p') : LoweredProgram c p p' :=
  runGives known.runnable.wellFormed known.run known.roomy

section Operands

variable {σ : Value → Value} {after : List Instr} {w : Word}
  (known : Comparable c p p') (mirrors : Mirrors c p p' fn f f') (rest : f.rest = i :: after)
  (settles : Settles ((pass c).site p fn) σ)

include known mirrors

theorem Mirrors.typed : ∀ i ∈ fn.code, i.Typed p fn := known.typed fn mirrors.source

include rest

omit known in
theorem Mirrors.inCode : i ∈ fn.code := by
  obtain ⟨b, block, instr⟩ := mirrors.within rest
  exact List.mem_flatMap.mpr ⟨b, block, instr⟩

theorem Mirrors.checked : WellFormed.instr? p fn fn.temps i = none := by
  obtain ⟨b, block, instr⟩ := mirrors.within rest
  exact WellFormed.instrSound (mirrors.sound known.runnable) block instr

theorem Mirrors.live (uses : i.Uses id) : fn.Dominates id f.rest := by
  rw [rest]
  exact usedLive (known.dominated fn mirrors.source) uses

include settles

theorem Mirrors.becomes (used : ∀ id, v = .temp id → i.Uses id) :
    ∃ u, Same fn v u ∧ IsEnd fn u ∧ σ v = encoded (pass c).encoding u ∧
      f'.value? .ieee (σ v) = f.value? .encoded v := by
  obtain ⟨trail, path⟩ := mirrors.path
  have live (id : TempId) (is : v = .temp id) := mirrors.live known rest (used id is)
  obtain ⟨u, same, ends, is⟩ := settledEnd settles (known.dominated fn mirrors.source)
    (mirrors.once known.runnable) path live
  exact ⟨u, same, ends, is, is ▸ mirrors.agrees.ended live same ends⟩

theorem Mirrors.values {vs : List Value} (used : ∀ id, .temp id ∈ vs → i.Uses id) :
    f'.values? .ieee (vs.map σ) = f.values? .encoded vs := by
  obtain ⟨trail, path⟩ := mirrors.path
  exact mirrors.agrees.values settles (known.dominated fn mirrors.source)
    (mirrors.once known.runnable) path fun id member => mirrors.live known rest (used id member)

theorem Mirrors.operands (n : Nat) : f'.values? .ieee ((i.operands.map σ).take n) =
    f.values? .encoded (i.operands.take n) := by
  rw [← List.map_take]
  exact mirrors.values known rest settles fun id member => .inl (List.mem_of_mem_take member)

omit settles in
theorem Mirrors.declared {k : TempId} (uses : i.Uses id) (same : Same fn (.temp id) (.temp k)) :
    ∃ t ∈ fn.temps, t.id = k := by
  obtain ⟨trail, path⟩ := mirrors.path
  exact sameDefined (mirrors.sound known.runnable) same fun j is =>
    Function.pathDefined path (Value.temp.inj is ▸ mirrors.live known rest uses _ path)

omit settles in
theorem Mirrors.endType {k : TempId} (uses : i.Uses id) (same : Same fn (.temp id) (.temp k))
    (ends : IsEnd fn (.temp k)) : Frame.tempType f'.fn k = (Frame.tempType fn k).stored :=
  storedType known.lowered.supported known.declares known.runnable known.typed mirrors.source
    mirrors.made (mirrors.declared known rest uses same) (ends k rfl)

theorem Mirrors.typeOf (used : ∀ id, v = .temp id → i.Uses id) :
    f'.typeOf? (σ v) = (f.typeOf? v).map Ty.stored ∨
      v.NamesLiteral fn ∧ f'.typeOf? (σ v) = none ∧ (f.typeOf? v).map Ty.stored = some .i32 := by
  obtain ⟨u, same, ends, is, -⟩ := mirrors.becomes known rest settles used
  have sound := mirrors.sound known.runnable
  have typed := mirrors.typed known
  have own (id : TempId) : f.typeOf? (.temp id) = some (Frame.tempType fn id) := by
    rw [Frame.typeOf?, mirrors.slotted]
    rfl
  rw [is]
  cases v with
  | temp id =>
    rw [own, Option.map_some]
    cases u with
    | temp k =>
      refine .inl (congrArg some ?_)
      rw [mirrors.endType known rest (used id rfl) same ends]
      cases same with
      | here => rfl
      | cast casts same' =>
        rw [castStored sound typed ⟨_, casts⟩]
        refine (nameNumber typed (.cast casts same')).elim (fun same => ?_) fun number => number
        rw [Value.temp.inj same]
        exact castStored sound typed ⟨_, casts⟩
    | _ =>
      refine .inr ⟨⟨id, _, rfl, same, rfl⟩, rfl, congrArg some ?_⟩
      cases same with
      | cast casts same => exact castStored sound typed ⟨_, casts⟩
  | _ =>
    rw [sameLiteral same rfl]
    exact .inl rfl

theorem Mirrors.typeKept (plain : v.NoFloat fn) (used : ∀ id, v = .temp id → i.Uses id) :
    f'.typeOf? (σ v) = f.typeOf? v ∨
      v.NamesLiteral fn ∧ f'.typeOf? (σ v) = none ∧ f.typeOf? v = some .i32 := by
  have same : (f.typeOf? v).map Ty.stored = f.typeOf? v := by
    cases v with
    | temp id =>
      rw [Frame.typeOf?, mirrors.slotted]
      exact congrArg some (Ty.storedOther plain)
    | _ => rfl
  rw [← same]
  exact mirrors.typeOf known rest settles used

theorem Mirrors.numberType (number : v.Number fn) (used : ∀ id, v = .temp id → i.Uses id) :
    (f'.typeOf? (σ v)).getD .i64 = .i32 ∨ (f'.typeOf? (σ v)).getD .i64 = .i64 := by
  rcases mirrors.typeOf known rest settles used with same | ⟨-, untyped, -⟩
  · rw [same]
    cases v with
    | temp id =>
      rw [Frame.typeOf?, mirrors.slotted]
      exact .inl number
    | _ => exact .inr rfl
  · rw [untyped]
    exact .inr rfl

omit settles in
theorem Mirrors.namedWord (names : v.NamesLiteral fn) (used : ∀ id, v = .temp id → i.Uses id)
    (value : f.value? .encoded v = some w) :
    ∃ u, Same fn v u ∧ u.encodedWord? = some w := by
  obtain ⟨id, u, is, same, plain⟩ := names
  have live (id : TempId) (is : v = .temp id) := mirrors.live known rest (used id is)
  have ends : IsEnd fn u := fun k temp => by
    rw [temp] at plain
    cases plain
  have literal : f'.value? .ieee (encoded (pass c).encoding u) = f.value? .encoded u :=
    encodedLiteral plain
  refine ⟨u, same, ?_⟩
  rw [← Value.encodedValue (f := f) plain, ← literal, mirrors.agrees.ended live same ends, value]

omit settles in
theorem Mirrors.numberWord (holds : f.HoldsOnly Word.Stores) (number : v.Number fn)
    (member : v ∈ i.operands) (value : f.value? .encoded v = some w) : w.Fits .i32 := by
  have fn' := mirrors.slotted
  refine Value.numberHeld (fn' ▸ number) (fun id is w held => ?_) value
  refine holds.temp (fn' ▸ mirrors.once known.runnable) ?_ held
  rw [fn']
  exact WellFormed.operandAmongTemps (mirrors.checked known rest) (is ▸ member)

end Operands

section Integers

variable {σ : Value → Value} {after : List Instr} {words : List Word}
  (known : Comparable c p p') (mirrors : Mirrors c p p' fn f f') (rest : f.rest = i :: after)
  (settles : Settles ((pass c).site p fn) σ) (op : j.op = i.op) (type : j.type = i.type)
  (operands : j.operands = i.operands.map σ)
  (values : f.values? .encoded (i.operands.take i.op.minOperands) = some words)

include known mirrors rest settles op type operands values

theorem Mirrors.sextAlike (is : i.op = .sext) :
    FloatDomain.ieee.compute f'.typeOf? j words = FloatDomain.encoded.compute f.typeOf? i words := by
  have count := WellFormed.operandCount (mirrors.checked known rest) (by rw [is]; rfl)
  rw [is] at op values count
  obtain ⟨v, single⟩ := List.length_eq_one_iff.mp count
  rw [single] at operands values
  obtain ⟨w, value, rfl⟩ := Frame.valuesOne values
  have used (id : TempId) (same : v = .temp id) : i.Uses id :=
    .inl (by rw [single, same]; exact List.mem_cons_self)
  have plain := (mirrors.typed known i (mirrors.inCode rest)).integers (by rw [is]; rfl) v
    (single ▸ List.mem_cons_self)
  rw [computeSext op operands, computeSext is single, type]
  rcases mirrors.typeKept known rest settles plain used with same | ⟨-, untyped, narrow⟩
  · rw [same]
  · rw [untyped, narrow]
    exact congrArg Except.ok (signExtended i.type w)

theorem Mirrors.zextAlike (is : i.op = .zext) :
    FloatDomain.ieee.compute f'.typeOf? j words = FloatDomain.encoded.compute f.typeOf? i words := by
  have count := WellFormed.operandCount (mirrors.checked known rest) (by rw [is]; rfl)
  rw [is] at op values count
  obtain ⟨v, single⟩ := List.length_eq_one_iff.mp count
  rw [single] at operands values
  obtain ⟨w, value, rfl⟩ := Frame.valuesOne values
  have member : v ∈ i.operands := single ▸ List.mem_cons_self
  have used (id : TempId) (same : v = .temp id) : i.Uses id := .inl (same ▸ member)
  have inCode := mirrors.inCode rest
  have plain := (mirrors.typed known i inCode).integers (by rw [is]; rfl) v member
  rw [computeZext op operands, computeZext is single, type]
  rcases mirrors.typeKept known rest settles plain used with same | ⟨names, untyped, narrow⟩
  · rw [same]
  · rw [untyped, narrow]
    refine congrArg Except.ok ?_
    simp only [Option.getD_none, Option.getD_some]
    cases small : Word.isNarrow i.type with
    | true => rw [Word.narrowUnsigned small]
    | false =>
      obtain ⟨u, same, literal⟩ := mirrors.namedWord known rest names used value
      obtain ⟨id, -, is', -⟩ := names
      have kept := (known.widths fn mirrors.source i inCode).widened is small v member
        (by rw [is']; rfl) u same w literal
      obtain ⟨keeps, cuts⟩ := Word.wideUnsigned small w
      rw [keeps, cuts, kept]

omit type in
theorem Mirrors.compareAlike {cmp : IntCompare} (is : i.op = .icmp cmp)
    (holds : f.HoldsOnly Word.Stores) :
    FloatDomain.ieee.compute f'.typeOf? j words = FloatDomain.encoded.compute f.typeOf? i words := by
  have count := WellFormed.operandCount (mirrors.checked known rest) (by rw [is]; rfl)
  rw [is] at op values count
  obtain ⟨u, v, pair⟩ := List.length_eq_two.mp count
  rw [pair] at operands values
  obtain ⟨a, b, left, right, rfl⟩ := Frame.valuesTwo values
  have first : u ∈ i.operands := pair ▸ List.mem_cons_self
  have second : v ∈ i.operands := pair ▸ List.mem_cons_of_mem _ List.mem_cons_self
  have inCode := mirrors.inCode rest
  have plain := (mirrors.typed known i inCode).integers (by rw [is]; rfl)
  have widths := (known.widths fn mirrors.source i inCode).compared cmp is
  rw [computeCompare op operands, computeCompare is pair]
  refine congrArg (fun b => Except.ok (Word.ofBool b)) ?_
  cases reads : cmp.readsWidth with
  | false => exact IntCompare.evalAnyWidth reads
  | true =>
    have usedFirst (id : TempId) (same : u = .temp id) : i.Uses id := .inl (same ▸ first)
    have usedSecond (id : TempId) (same : v = .temp id) : i.Uses id := .inl (same ▸ second)
    -- If the operand that decides names a literal, both words are numbers, and any width will do.
    have anyWidth (numbers : ∀ x ∈ i.operands, x.Number fn) {t : Ty} (wide : t = .i32 ∨ t = .i64) :
        cmp.eval t a b = cmp.eval .i32 a b := by
      have same : cmp.eval .i32 a b = cmp.eval .i64 a b :=
        IntCompare.evalNumbers (mirrors.numberWord known rest holds (numbers u first) first left)
          (mirrors.numberWord known rest holds (numbers v second) second right)
      rcases wide with rfl | rfl
      · rfl
      · exact same.symm
    have left' := mirrors.typeKept known rest settles (plain u first) usedFirst
    have right' := mirrors.typeKept known rest settles (plain v second) usedSecond
    unfold comparedType
    rcases left' with same | ⟨names, untyped, narrow⟩
    · rw [same]
      cases isTemp : u.isTemp with
      | true =>
        cases u with
        | temp id => rfl
        | _ => cases isTemp
      | false =>
        rcases right' with same' | ⟨names, untyped, narrow⟩
        · rw [same']
        · have literal : f.typeOf? u = none := by
            cases u with
            | temp => cases isTemp
            | _ => rfl
          obtain ⟨id, _, is, -⟩ := id names
          have decides : i.operands.find? Value.isTemp = some v := by
            rw [pair, List.find?_cons_of_neg (by simp [isTemp]), List.find?_cons_of_pos (by rw [is]; rfl)]
          rw [literal, untyped, narrow]
          exact anyWidth (widths reads v decides names) (.inr rfl)
    · obtain ⟨id, _, is, -⟩ := id names
      have decides : i.operands.find? Value.isTemp = some u := by
        rw [pair, List.find?_cons_of_pos (by rw [is]; rfl)]
      have numbers := widths reads u decides names
      rw [untyped, narrow]
      exact anyWidth numbers (mirrors.numberType known rest settles (numbers v second) usedSecond)

theorem Mirrors.copiedAlike (kept : copied i.op = true) (computes : i.op.computes = true)
    (holds : f.HoldsOnly Word.Stores) :
    FloatDomain.ieee.compute f'.typeOf? j words = FloatDomain.encoded.compute f.typeOf? i words := by
  cases is : i.op with
  | sext => exact mirrors.sextAlike known rest settles op type operands values is
  | zext => exact mirrors.zextAlike known rest settles op type operands values is
  | icmp cmp => exact mirrors.compareAlike known rest settles op operands values is holds
  | int | trunc | zext1 | trunc1 =>
    unfold FloatDomain.compute
    rw [op, is, type]
    rcases words with _ | ⟨a, _ | ⟨b, words⟩⟩ <;> rfl
  | br | cbr | ret =>
    rw [is] at computes
    cases computes
  | _ =>
    rw [is] at kept
    cases kept

end Integers

section Sequences

variable {σ : Value → Value} {after : List Instr} {next r : TempId} {w : Word}
  (known : Comparable c p p') (mirrors : Mirrors c p p' fn f f') (rest : f.rest = i :: after)
  (settles : Settles ((pass c).site p fn) σ) (holds : f.HoldsOnly Word.Stores)
  (result : i.resultIds = [r]) (reserved : fn.nextTemp.toNat ≤ next.toNat)

theorem resultOther {trail : List TempId} (dominated : fn.UsesDominated) (once : fn.DefinesOnce)
    (path : fn.Path trail (i :: after)) {b : Block} (block : b ∈ fn.blocks) (instr : i ∈ b.instrs)
    (result : i.resultIds = [r]) (uses : i.Uses id) {k : TempId}
    (same : Same fn (.temp id) (.temp k)) : k ≠ r := by
  rintro rfl
  have along {trail : List TempId} {code : List Instr} {u k : TempId} (path : fn.Path trail code)
      (same : Same fn (.temp u) (.temp k)) (member : u ∈ trail) : k ∈ trail := by
    generalize start : Value.temp u = v, target : Value.temp k = w at same
    induction same generalizing u with
    | here =>
      cases start
      cases target
      exact member
    | @cast u' v w casts same ih =>
      cases start
      cases v with
      | temp next =>
        exact ih (Function.trailNeeds dominated once (castsNeeds casts) path member) rfl target
      | _ =>
        cases same
        cases target
  -- The first definition of the result reads it under some name, and so comes behind another one.
  have defined := along path same (dominated trail i after path id uses)
  obtain ⟨late, ids, early, mid, -, new, here, lands⟩ := Function.pathFirst path defined
  have needs : fn.Needs k id := ⟨b, block, i, instr, result, uses⟩
  obtain ⟨-, old⟩ := Function.needsEarly dominated once needs lands here
  cases lands with
  | enter => cases old
  | move path' edge => exact new (along path' same old)

include known mirrors rest result reserved in
theorem Mirrors.unwritten {k : TempId} (uses : i.Uses id)
    (same : Same fn (.temp id) (.temp k)) : k.toNat < next.toNat ∧ k ≠ r := by
  obtain ⟨b, block, instr⟩ := mirrors.within rest
  obtain ⟨trail, path⟩ := mirrors.path
  obtain ⟨t, member, rfl⟩ := mirrors.declared known rest uses same
  have below := Function.tempBelowNext member (known.runnable.room fn mirrors.source t member)
  exact ⟨Nat.lt_of_lt_of_le below reserved, resultOther (known.dominated fn mirrors.source)
    (mirrors.once known.runnable) (rest ▸ path) block instr result uses same⟩

include known mirrors rest settles holds result reserved

theorem Mirrors.operand (number : v.Number fn) (member : v ∈ i.operands)
    (value : f.value? .encoded v = some w) :
    Sequence.Operand f' next r (σ v) (Word.low w) := by
  have used (id : TempId) (same : v = .temp id) : i.Uses id := .inl (same ▸ member)
  obtain ⟨u, same, ends, is, held⟩ := mirrors.becomes known rest settles used
  have fits := mirrors.numberWord known rest holds number member value
  have word : Word.ofInt32 (Word.low w) = w := Word.normalizeFits fits
  have numberEnd : u.Number fn := by
    rcases nameNumber (mirrors.typed known) same with rfl | number
    · exact number
    · exact number
  rw [is] at held ⊢
  rw [value] at held
  cases u with
  | temp k =>
    obtain ⟨id, rfl⟩ : ∃ id, v = .temp id := by
      cases v with
      | temp id => exact ⟨id, rfl⟩
      | _ => cases same
    have uses := used id rfl
    obtain ⟨below, other⟩ := mirrors.unwritten known rest result reserved uses same
    refine .temp below other ?_ (word.symm ▸ held)
    rw [mirrors.endType known rest uses same ends]
    exact numberEnd
  | int n =>
    have literal : w = Word.ofInt64 n := (Option.some.inj held).symm
    have number : n = (Word.low w).toInt64 := by
      have same : (Word.ofInt32 (Word.low w)).toInt64 = (Word.ofInt64 n).toInt64 := by
        rw [word, literal]
      exact same.symm
    change Sequence.Operand f' next r (.int n) _
    rw [number]
    exact .literal _
  | float x =>
    have low : Word.low w = Fixed.ofFloat x := by
      have literal : w = Word.ofInt32 (Fixed.ofFloat x) := (Option.some.inj held).symm
      rw [literal, Word.lowOfInt32]
    rw [low]
    exact .literal _
  | bool b => exact numberEnd.elim
  | null => exact numberEnd.elim

theorem Mirrors.whole {type : Ty} (typed : ((pass c).site p fn).typeOf? v = some type)
    (integer : type.isInteger = true) (temp : v.intLiteral? = none) (member : v ∈ i.operands)
    (value : f.value? .encoded v = some w) :
    f.typeOf? v = some type ∧
      ((∃ k, σ v = .temp k ∧ k.toNat < next.toNat ∧ k ≠ r ∧ Frame.tempType f'.fn k = type ∧
          f'.regs[k.toNat]? = some w ∧ Word.normalize type w = w) ∨
        type = .i32 ∧ ∃ n, σ v = .int n ∧ w = Word.ofInt64 n) := by
  obtain ⟨id, rfl⟩ : ∃ id, v = .temp id := by
    cases v with
    | temp id => exact ⟨id, rfl⟩
    | float | null =>
      cases typed
      cases integer
    | int | bool => cases temp
  have uses : i.Uses id := .inl member
  have once := mirrors.once known.runnable
  have own : Frame.tempType fn id = type :=
    Function.tempTypeOnce once ((Function.tempTypeIff once).mp typed)
  have known' : f.typeOf? (.temp id) = some type := by
    rw [Frame.typeOf?, mirrors.slotted]
    exact congrArg some own
  refine ⟨known', ?_⟩
  have used (k : TempId) (same : Value.temp id = .temp k) : i.Uses k := Value.temp.inj same ▸ uses
  obtain ⟨u, same, ends, is, held⟩ := mirrors.becomes known rest settles used
  have types := mirrors.typeOf known rest settles used
  rw [known', Option.map_some, Ty.storedInteger integer] at types
  rw [is] at held types ⊢
  rw [value] at held
  cases u with
  | temp k =>
    obtain ⟨below, other⟩ := mirrors.unwritten known rest result reserved uses same
    refine .inl ⟨k, rfl, below, other, ?_, held, ?_⟩
    · rcases types with same | ⟨-, none, -⟩
      · exact Option.some.inj same
      · cases none
    · have fn' := mirrors.slotted
      have fits := holds.temp (fn' ▸ once) (fn' ▸ WellFormed.operandAmongTemps
        (mirrors.checked known rest) member) value
      have stored : (Frame.tempType f.fn id).stored = type := by
        rw [fn']
        change (Frame.tempType fn id).stored = type
        rw [own, Ty.storedInteger integer]
      rw [stored] at fits
      exact Word.normalizeFits fits
  | int n =>
    rcases types with none | ⟨-, -, narrow⟩
    · cases none
    · exact .inr ⟨Option.some.inj narrow, n, rfl, (Option.some.inj held).symm⟩
  | float x =>
    rcases types with none | ⟨-, -, narrow⟩
    · cases none
    · exact .inr ⟨Option.some.inj narrow, _, rfl, (Option.some.inj held).symm⟩
  | bool | null =>
    rcases nameNumber (mirrors.typed known) same with is | number
    · cases is
    · exact number.elim

theorem Mirrors.means {q : TempId → Emit Value} {words : List Word}
    (sequenced : Sequenced ((pass c).site p fn) σ i q)
    (values : f.values? .encoded (i.operands.take i.op.minOperands) = some words) :
    ∃ w, FloatDomain.encoded.compute f.typeOf? i words = .ok w ∧
      (Sequence.Means f' next r (q r) w ∨ ∃ n, q r = Sequence.ofInt (.int n) .i32 r ∧
        w = Word.ofInt32 (Fixed.ofInt (Word.low (Word.ofInt64 n)))) := by
  have numbers := (mirrors.typed known i (mirrors.inCode rest)).numbers
  have operand {v : Value} {w : Word} (reads : i.op.readsNumbers = true) (member : v ∈ i.operands)
      (value : f.value? .encoded v = some w) : Sequence.Operand f' next r (σ v) (Word.low w) :=
    mirrors.operand known rest settles holds result reserved (numbers reads v member) member value
  cases sequenced with
  | @arith op u more is count float operands =>
    have reads : i.op.readsNumbers = true := by rw [is]; rfl
    rw [is, operands] at values
    rw [operands] at count
    by_cases one : op.operands = 1
    · obtain rfl : more = [] := by
        rw [one] at count
        exact List.length_eq_zero_iff.mp (Nat.succ.inj count)
      rw [Opcode.minOperands, one] at values
      obtain ⟨a, value, rfl⟩ := Frame.valuesOne values
      have first := operand reads (operands ▸ List.mem_cons_self) value
      refine ⟨_, ?_, .inl (.arith op first first)⟩
      simp only [FloatDomain.compute, is, one]
      rfl
    · have two : op.operands = 2 := by
        revert one
        cases op <;> simp [FloatOp.operands]
      obtain ⟨v, rfl⟩ : ∃ v, more = [v] := by
        rw [two] at count
        exact List.length_eq_one_iff.mp (Nat.succ.inj count)
      rw [Opcode.minOperands, two] at values
      obtain ⟨a, b, left, right, rfl⟩ := Frame.valuesTwo values
      have first := operand reads (operands ▸ List.mem_cons_self) left
      have second := operand reads
        (operands ▸ List.mem_cons_of_mem _ List.mem_cons_self) right
      refine ⟨_, ?_, .inl (.arith op first second)⟩
      simp only [FloatDomain.compute, is, two]
      rfl
  | @compare cmp u v is operands =>
    have reads : i.op.readsNumbers = true := by rw [is]; rfl
    rw [is, operands] at values
    obtain ⟨a, b, left, right, rfl⟩ := Frame.valuesTwo values
    have first := operand reads (operands ▸ List.mem_cons_self) left
    have second := operand reads (operands ▸ List.mem_cons_of_mem _ List.mem_cons_self) right
    refine ⟨_, ?_, .inl (.compare cmp first second)⟩
    simp only [FloatDomain.compute, is]
    rfl
  | @toInt v is operands integer number =>
    have reads : i.op.readsNumbers = true := by rw [is]; rfl
    rw [is, operands] at values
    obtain ⟨a, value, rfl⟩ := Frame.valuesOne values
    have first := operand reads (operands ▸ List.mem_cons_self) value
    refine ⟨_, ?_, .inl (.toInt integer number first)⟩
    simp only [FloatDomain.compute, is]
    rfl
  | @ofInt v type is operands typed integer temp =>
    rw [is, operands] at values
    obtain ⟨a, value, rfl⟩ := Frame.valuesOne values
    have low (x : Word) : x.toInt64.toInt32 = Word.low x := (Word.lowOfInt64 x.toInt64).symm
    obtain ⟨own, kinds⟩ := mirrors.whole known rest settles holds result reserved typed integer temp
      (operands ▸ List.mem_cons_self) value
    have computed : FloatDomain.encoded.compute f.typeOf? i [a] =
        .ok (Word.ofInt32 (Fixed.ofInt (Word.low (signExtendFrom type a)))) := by
      simp only [FloatDomain.compute, is, operands, own, Option.getD_some, FloatDomain.encoded, low]
    refine ⟨_, computed, ?_⟩
    -- An operand that has become a literal is shifted as it stands; no register is read for it.
    rcases kinds with ⟨k, temp, below, other, type', held, normal⟩ | ⟨rfl, n, literal, rfl⟩
    · rw [temp]
      exact .inl (.ofInt integer below other type' held normal)
    · exact .inr ⟨n, by rw [literal], rfl⟩

end Sequences

end Lowering
end FixedIL
