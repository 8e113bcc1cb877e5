import FixedIL.Lowering.Pass
import FixedIL.Proofs.HeldWords
import FixedIL.Proofs.LaneCalls
import FixedIL.Proofs.SequenceBits

/-!
The domain in which every float is held as its Q16.16 encoding. Such a word is stored, loaded and
passed to a native routine like a 32-bit integer, and builtins run their fixed-point implementations.
-/
namespace FixedIL

def Ty.stored (t : Ty) : Ty := if t.isFloat then .i32 else t

namespace Ty

variable {t : Ty}

theorem storedFloat (float : t.isFloat = true) : t.stored = .i32 := by rw [stored, if_pos float]

theorem storedOther (other : t.isFloat = false) : t.stored = t := by
  rw [stored, other]
  rfl

theorem storedInteger (integer : t.isInteger = true) : t.stored = t := by
  refine storedOther ?_
  cases t <;> first | rfl | cases integer

theorem storedMapped {format : Fixed.Format} (supported : format.isSupported = true) (t : Ty) :
    Lowering.mapTy format t = t.stored := by
  cases format with
  | fixed16x16 => rfl
  | fixed32x32 => cases supported

end Ty

def Builtin.Registry.fixedRoutine? (registry : Builtin.Registry) (symbol : String) :
    Option NativeRoutine := do
  let hit ← registry.findSymbol? symbol
  let m ← registry.implementationFor? hit.descriptor .fixedPoint
  m.routine

namespace FloatDomain

/-- No program that is lowered takes remainders; here they are those of the encodings. -/
def encoded : FloatDomain where
  literal x := Word.ofInt32 (Fixed.ofFloat x)
  constant _ v := Word.ofInt32 (Fixed.ofFloat (constantValue v))
  arith op _ a b := Word.ofInt32 (Fixed.arith op (Word.low a) (Word.low b))
  remainder _ a b := Word.ofInt32 (Word.low a % Word.low b)
  compare c a b := Fixed.compare c (Word.low a) (Word.low b)
  ofInt _ n := Word.ofInt32 (Fixed.ofInt n.toInt32)
  toInt t a := Word.normalize t (Word.ofInt32 (Fixed.toInt (Word.low a)))
  cast _ a := a
  toFixed a := a
  ofFixed _ a := a
  size t := t.stored.size
  read _ raw := Word.normalize .i32 raw
  write _ w := w
  routine? := Builtin.Registry.fixedRoutine?

theorem encodedSize (t : Ty) : encoded.sizeOf t = t.stored.size := by
  cases t <;> rfl

theorem encodedLoad (t : Ty) (bytes : List UInt8) :
    encoded.load t bytes = ieee.load t.stored bytes := by
  cases t <;> rfl

theorem encodedStore (t : Ty) (w : Word) : encoded.store t w = ieee.store t.stored w := by
  cases t <;> rfl

theorem encodedCell (t : Ty) (w : Word) : encoded.cell t w = ieee.cell t.stored w := by
  cases t <;> rfl

theorem encodedResults (types : List Ty) (bytes : List UInt8) :
    Machine.loadResults encoded types bytes =
      Machine.loadResults ieee (types.map Ty.stored) bytes := by
  induction types generalizing bytes with
  | nil => rfl
  | cons t types ih =>
    rw [List.map_cons, Machine.loadResults, Machine.loadResults, encodedLoad, encodedSize, ieeeSize,
      ih]

end FloatDomain

def Value.encodedWord? : Value → Option Word
  | .temp _ => none
  | .int n => some (Word.ofInt64 n)
  | .bool b => some (Word.ofBool b)
  | .float x => some (Word.ofInt32 (Fixed.ofFloat x))
  | .null => some 0

def Value.Suits (t : Ty) (v : Value) : Prop := ∀ w ∈ v.encodedWord?, w.Fits t.stored

-- Given by name: a search may come to the instance that goes through all the words there are.
instance (t : Ty) (v : Value) : Decidable (v.Suits t) :=
  Option.decidableForallMem v.encodedWord?

def Value.Number (f : Function) : Value → Prop
  | .temp id => (Frame.tempType f id).stored = .i32
  | .int n => (Word.ofInt64 n).Fits .i32
  | .float _ => True
  | _ => False

instance (f : Function) (v : Value) : Decidable (v.Number f) :=
  match v with
  | .temp id => inferInstanceAs (Decidable ((Frame.tempType f id).stored = .i32))
  | .int n => inferInstanceAs (Decidable ((Word.ofInt64 n).Fits .i32))
  | .float _ => inferInstanceAs (Decidable True)
  | .bool _ | .null => inferInstanceAs (Decidable False)

def Value.NoFloat (f : Function) : Value → Prop
  | .temp id => (Frame.tempType f id).isFloat = false
  | _ => True

instance (f : Function) (v : Value) : Decidable (v.NoFloat f) :=
  match v with
  | .temp id => inferInstanceAs (Decidable ((Frame.tempType f id).isFloat = false))
  | .int _ | .bool _ | .float _ | .null => inferInstanceAs (Decidable True)

namespace Opcode

def yields (op : Opcode) (t : Ty) : Bool :=
  match op with
  | .iconst | .icmp _ | .sext | .zext | .trunc | .zext1 | .trunc1 | .fptosi => t.isInteger
  | .fcmp _ => t = .i1
  | .fconst | .frem | .sitofp | .fpext | .fptrunc | .fromfixed => t.isFloat
  | .tofixed => t = .i32
  | .stackaddr => t = .ptr
  | _ => true

def readsNumbers : Opcode → Bool
  | .float _ | .fcmp _ | .fptosi | .fpext | .fptrunc | .tofixed | .fromfixed => true
  | _ => false

def readsTypes : Opcode → Bool
  | .icmp _ | .sext | .zext => true
  | _ => false

end Opcode

structure Instr.Typed (p : Program) (f : Function) (i : Instr) : Prop where
  yields : i.op.yields i.type = true
  flows : ∀ flow ∈ i.flows p f, flow.1.Suits flow.2
  numbers : i.op.readsNumbers = true → ∀ v ∈ i.operands, v.Number f
  integers : i.op.readsTypes = true → ∀ v ∈ i.operands, v.NoFloat f

instance (p : Program) (f : Function) (i : Instr) : Decidable (i.Typed p f) :=
  decidable_of_iff (i.op.yields i.type = true ∧ (∀ flow ∈ i.flows p f, flow.1.Suits flow.2) ∧
      (i.op.readsNumbers = true → ∀ v ∈ i.operands, v.Number f) ∧
      (i.op.readsTypes = true → ∀ v ∈ i.operands, v.NoFloat f))
    ⟨fun ⟨yields, flows, numbers, integers⟩ => ⟨yields, flows, numbers, integers⟩,
      fun typed => ⟨typed.yields, typed.flows, typed.numbers, typed.integers⟩⟩

def Program.Typed (p : Program) : Prop := ∀ f ∈ p.functions, ∀ i ∈ f.code, i.Typed p f

instance (p : Program) : Decidable p.Typed := by unfold Program.Typed; infer_instance

namespace Value

variable {f : Frame} {v : Value} {t : Ty} {w : Word}

theorem encodedValue (plain : v.isTemp = false) : f.value? .encoded v = v.encodedWord? := by
  cases v with
  | temp => cases plain
  | _ => rfl

theorem suitsHeld (suits : v.Suits t) (plain : v.isTemp = false)
    (held : f.value? .encoded v = some w) : w.Fits t.stored := by
  rw [encodedValue plain] at held
  exact suits w held

theorem numberHeld (number : v.Number f.fn)
    (temps : ∀ id, v = .temp id → ∀ w, f.regs[id.toNat]? = some w →
      w.Fits (Frame.tempType f.fn id).stored)
    (held : f.value? .encoded v = some w) : w.Fits .i32 := by
  cases v with
  | temp id =>
    have type : (Frame.tempType f.fn id).stored = .i32 := number
    rw [← type]
    exact temps id rfl w held
  | int n =>
    cases held
    exact number
  | float x =>
    cases held
    exact Word.fitsInt32 _
  | bool b => exact number.elim
  | null => exact number.elim

end Value

namespace FloatDomain

theorem encodedFits {typeOf? : Value → Option Ty} {i : Instr} {words : List Word} {w : Word}
    (yields : i.op.yields i.type = true) (arith : ∀ op, i.op = .float op → i.type.isFloat = true)
    (whole : ∀ op, i.op = .int op → i.type.isInteger = true)
    (arms : i.op = .select → ∀ a ∈ words.drop 1, a.Fits i.type.stored)
    (numbers : i.op.readsNumbers = true → ∀ a ∈ words, a.Fits .i32)
    (gives : encoded.compute typeOf? i words = .ok w) : w.Fits i.type.stored := by
  have integer (is : i.type.isInteger = true) (a : Word) :
      (Word.normalize i.type a).Fits i.type.stored := by
    rw [Ty.storedInteger is]
    exact Word.fitsNormalized _ _
  have float (is : i.type.isFloat = true) (x : Int32) : (Word.ofInt32 x).Fits i.type.stored := by
    rw [Ty.storedFloat is]
    exact Word.fitsInt32 x
  have made {op : Opcode} (is : i.op = op) : op.yields i.type = true := is ▸ yields
  have copied {op : Opcode} (is : i.op = op) (reads : op.readsNumbers = true) {a : Word}
      (member : a ∈ words) : a.Fits .i32 := numbers (is ▸ reads) a member
  unfold compute at gives
  split at gives
  · obtain rfl := Except.ok.inj gives
    exact integer (made ‹i.op = .iconst›) _
  · obtain rfl := Except.ok.inj gives
    exact float (made ‹i.op = .fconst›) _
  · rename_i op a b _ is
    split at gives
    · rename_i v value
      obtain rfl := Except.ok.inj gives
      obtain ⟨raw, -, rfl⟩ := Option.map_eq_some_iff.mp value
      exact integer (whole op is) raw
    · cases gives
  · obtain rfl := Except.ok.inj gives
    exact Word.fitsBool _ _
  · obtain rfl := Except.ok.inj gives
    exact integer (made ‹i.op = .sext›) _
  · obtain rfl := Except.ok.inj gives
    exact integer (made ‹i.op = .zext›) _
  · obtain rfl := Except.ok.inj gives
    exact integer (made ‹i.op = .zext1›) _
  · obtain rfl := Except.ok.inj gives
    exact integer (made ‹i.op = .trunc›) _
  · obtain rfl := Except.ok.inj gives
    exact Word.fitsBit _ _
  · rename_i c a b _ op
    obtain rfl := Except.ok.inj gives
    split
    · exact arms op a List.mem_cons_self
    · exact arms op b (List.mem_cons_of_mem _ List.mem_cons_self)
  · rename_i op _ _ is
    split at gives
    · obtain rfl := Except.ok.inj gives
      exact float (arith op is) _
    · obtain rfl := Except.ok.inj gives
      exact float (arith op is) _
    · cases gives
  · obtain rfl := Except.ok.inj gives
    exact float (made ‹i.op = .frem›) _
  · obtain rfl := Except.ok.inj gives
    exact Word.fitsBool _ _
  · obtain rfl := Except.ok.inj gives
    exact float (made ‹i.op = .sitofp›) _
  · obtain rfl := Except.ok.inj gives
    exact integer (made ‹i.op = .fptosi›) _
  · obtain rfl := Except.ok.inj gives
    rw [Ty.storedFloat (made ‹i.op = .fpext›)]
    exact copied ‹i.op = .fpext› rfl List.mem_cons_self
  · obtain rfl := Except.ok.inj gives
    rw [Ty.storedFloat (made ‹i.op = .fptrunc›)]
    exact copied ‹i.op = .fptrunc› rfl List.mem_cons_self
  · obtain rfl := Except.ok.inj gives
    have type : i.type = .i32 := of_decide_eq_true (made ‹i.op = .tofixed›)
    rw [type]
    exact copied ‹i.op = .tofixed› rfl List.mem_cons_self
  · obtain rfl := Except.ok.inj gives
    rw [Ty.storedFloat (made ‹i.op = .fromfixed›)]
    exact copied ‹i.op = .fromfixed› rfl List.mem_cons_self
  · cases gives

end FloatDomain
end FixedIL
