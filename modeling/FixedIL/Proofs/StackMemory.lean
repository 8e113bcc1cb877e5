import FixedIL.Proofs.IntegerBits
import FixedIL.Proofs.LaneCalls
import FixedIL.Proofs.NativeAnswers

/-!
Loads behind a store. A store changes the bytes of its range and no others, so that a load of
another range finds what it found before. The range itself holds the word, least byte first: a load
of the same type finds it again, and a load of a part finds the digits of it that lie there.
-/
namespace FixedIL

namespace Bytes

variable {buffer bytes : List UInt8} {offset start k n : Nat}

theorem overwriteOutside (inside : offset + bytes.length ≤ buffer.length)
    (outside : k < offset ∨ offset + bytes.length ≤ k) :
    (overwrite buffer offset bytes)[k]? = buffer[k]? := by
  have front : (buffer.take offset).length = offset := List.length_take_of_le (by omega)
  rw [overwrite, List.append_assoc, List.getElem?_append, front]
  split
  · rename_i before
    rw [List.getElem?_take, if_pos before]
  · rename_i behind
    have past : ¬ k - offset < bytes.length := by omega
    rw [List.getElem?_append, if_neg past, List.getElem?_drop]
    congr 1
    omega

theorem sliceAt :
    (slice buffer offset n)[k]? = if k < n then buffer[offset + k]? else none := by
  rw [slice, List.getElem?_take, List.getElem?_drop]

theorem sliceOutside (inside : offset + bytes.length ≤ buffer.length)
    (outside : start + n ≤ offset ∨ offset + bytes.length ≤ start) :
    slice (overwrite buffer offset bytes) start n = slice buffer start n := by
  apply List.ext_getElem?
  intro k
  rw [sliceAt, sliceAt]
  split
  -- A byte of the slice lies on the side of the range on which the slice does.
  · exact overwriteOutside inside (by omega)
  · rfl

theorem sliceInside (inside : offset + bytes.length ≤ buffer.length)
    (within : start + n ≤ bytes.length) :
    slice (overwrite buffer offset bytes) (offset + start) n = slice bytes start n := by
  have front : (buffer.take offset).length = offset := List.length_take_of_le (by omega)
  have dropped : (overwrite buffer offset bytes).drop offset =
      bytes ++ buffer.drop (offset + bytes.length) := by
    rw [overwrite, List.append_assoc, List.drop_left' front]
  have rest : start ≤ bytes.length := by omega
  rw [slice, ← List.drop_drop, dropped, List.drop_append_of_le_length rest,
    List.take_append_of_le_length (by rw [List.length_drop]; omega)]
  rfl

theorem ofWordTake {m : Nat} (few : m ≤ n) (w : UInt64) : (ofWord n w).take m = ofWord m w := by
  induction m generalizing n w with
  | zero => rfl
  | succ m ih =>
    cases n with
    | zero => omega
    | succ n => rw [ofWord, List.take_succ_cons, ih (Nat.le_of_succ_le_succ few), ofWord]

theorem pieceNat (within : start + k ≤ n) (few : k ≤ 8) (w : UInt64) :
    (toWord (slice (ofWord n w) start k)).toNat = w.toNat / 2 ^ (8 * start) % 2 ^ (8 * k) := by
  -- Each byte that is passed over takes the lowest digit off the word.
  induction start generalizing n w with
  | zero =>
    rw [slice, List.drop_zero, ofWordTake (by omega), toWordOfWord few]
    simp
  | succ start ih =>
    cases n with
    | zero => omega
    | succ n =>
      have shifted : (w >>> 8).toNat = w.toNat / 2 ^ 8 := by
        rw [UInt64.toNat_shiftRight, Nat.shiftRight_eq_div_pow]
        rfl
      have rest : (toWord (slice (ofWord n (w >>> 8)) start k)).toNat =
          w.toNat / 2 ^ 8 / 2 ^ (8 * start) % 2 ^ (8 * k) := by
        rw [ih (by omega), shifted]
      rw [Nat.div_div_eq_div_mul, ← Nat.pow_add, Nat.add_comm 8] at rest
      exact rest

end Bytes

namespace Word

variable {t u : Ty} {x w : Word}

theorem normalizeCongr (same : x.toNat % 2 ^ t.width = w.toNat % 2 ^ t.width) :
    normalize t x = normalize t w := by
  have whole (wide : t.width = 64) : x = w := by
    rw [wide, Nat.mod_eq_of_lt x.toNat_lt, Nat.mod_eq_of_lt w.toNat_lt] at same
    exact UInt64.toNat_inj.mp same
  have held (sized : t.sized = true) : normalize t x = normalize t w := by
    have low : bits t.width x = bits t.width w := BitVec.eq_of_toNat_eq (by
      rw [bits, bits, BitVec.toNat_setWidth, BitVec.toNat_setWidth]
      exact same)
    rw [normalizeBits sized, normalizeBits sized, low]
  cases t with
  | i1 =>
    apply UInt64.toNat_inj.mp
    rw [normalize, normalize, UInt64.toNat_and, UInt64.toNat_and]
    exact (Nat.and_one_is_mod _).trans (same.trans (Nat.and_one_is_mod _).symm)
  | i8 | i16 | i32 | i64 => exact held rfl
  | void | f32 | f64 | ptr => rw [whole rfl]

def above (w : Word) (k : Nat) : Word := ⟨w.toBitVec.sshiftRight k⟩

theorem aboveInt (w : Word) (k : Nat) : (above w k).toInt64.toInt = w.toInt64.toInt / 2 ^ k := by
  have shifted : (w.toBitVec.sshiftRight k).toInt = w.toBitVec.toInt >>> k :=
    BitVec.toInt_sshiftRight
  exact shifted.trans (Int.shiftRight_eq_div_pow _ _)

theorem aboveBits {k n : Nat} (within : k + n ≤ 64)
    (digits : x.toNat = w.toNat / 2 ^ k % 2 ^ n) : bits n x = bits n (above w k) := by
  apply BitVec.eq_of_getLsbD_eq
  intro i low
  have inside : k + i < 64 := by omega
  have digit : x.toBitVec.getLsbD i = w.toBitVec.getLsbD (k + i) := by
    have testBit : x.toNat.testBit i = w.toNat.testBit (k + i) := by
      rw [digits, Nat.testBit_mod_two_pow, ← Nat.shiftRight_eq_div_pow, Nat.testBit_shiftRight]
      simp [low]
    exact testBit
  have short : decide (64 ≤ i) = false := decide_eq_false (by omega)
  rw [bits, bits, BitVec.getLsbD_setWidth, BitVec.getLsbD_setWidth, digit, above,
    BitVec.getLsbD_sshiftRight, short, if_pos inside, Bool.not_false, Bool.true_and]

theorem pieceInt (sized : u.sized = true) {k : Nat} (within : k + u.width ≤ 64)
    (digits : x.toNat = w.toNat / 2 ^ k % 2 ^ u.width) :
    (normalize u x).toInt64.toInt = (w.toInt64.toInt / 2 ^ k).bmod (2 ^ u.width) := by
  have narrow : u.width ≤ 64 := (Ty.sizedWidth sized).2
  rw [normalizeBits sized, numberOfBits narrow, aboveBits within digits, bitsInt narrow, aboveInt]

end Word

theorem Ty.plainSize {t : Ty} (plain : t.isInteger = true ∨ t = .f64) :
    0 < t.size ∧ t.size ≤ 8 ∧ t.width ≤ 8 * t.size := by
  rcases plain with integer | rfl
  · cases t with
    | i1 | i8 | i16 | i32 | i64 => decide
    | _ => cases integer
  · decide

theorem Ty.sizedSize {u : Ty} (sized : u.sized = true) :
    u.isInteger = true ∧ u.width = 8 * u.size := by
  cases u with
  | i8 | i16 | i32 | i64 => exact ⟨rfl, rfl⟩
  | _ => cases sized

namespace FloatDomain

variable {t : Ty} {w : Word}

theorem ieeeStore (plain : t.isInteger = true ∨ t = .f64) (w : Word) :
    ieee.store t w = Bytes.ofWord t.size w := by
  rcases plain with integer | rfl
  · cases t with
    | i1 | i8 | i16 | i32 | i64 => rfl
    | _ => cases integer
  · rfl

theorem ieeeLoad (plain : t.isInteger = true ∨ t = .f64) (bytes : List UInt8) :
    ieee.load t bytes = Word.normalize t (Bytes.toWord bytes) := by
  rcases plain with integer | rfl
  · cases t with
    | i1 | i8 | i16 | i32 | i64 => rfl
    | _ => cases integer
  · rfl

end FloatDomain

namespace Memory

structure Span where
  buffer : Nat
  start : Nat
  size : Nat
  deriving DecidableEq, Repr

namespace Span

def Covers (s : Span) (k j : Nat) : Prop := k = s.buffer ∧ s.start ≤ j ∧ j < s.start + s.size

def Apart (s r : Span) : Prop :=
  s.buffer = r.buffer → s.start + s.size ≤ r.start ∨ r.start + r.size ≤ s.start

end Span

def span? (a : Word) (n : Nat) : Option Span := (locate? a).map fun (k, start) => ⟨k, start, n⟩

def byte? (m : Memory) (k j : Nat) : Option UInt8 := m.buffers[k]?.bind (·[j]?)

def Holds (m : Memory) (s : Span) : Prop :=
  ∃ buffer, m.buffers[s.buffer]? = some buffer ∧ s.start + s.size ≤ buffer.length

variable {m m' : Memory} {a b : Word} {s r : Span} {bytes : List UInt8} {n : Nat}

theorem spanIff : span? a n = some s ↔ locate? a = some (s.buffer, s.start) ∧ s.size = n := by
  obtain ⟨k, start, size⟩ := s
  rw [span?, Option.map_eq_some_iff]
  constructor
  · rintro ⟨_, place, is⟩
    cases is
    exact ⟨place, rfl⟩
  · rintro ⟨place, rfl⟩
    exact ⟨_, place, rfl⟩

structure Written (m : Memory) (s : Span) (bytes : List UInt8) (m' : Memory) : Prop where
  size : bytes.length = s.size
  buffer : ∃ buffer, m.buffers[s.buffer]? = some buffer ∧ s.start + s.size ≤ buffer.length ∧
    m' = ⟨m.buffers.set s.buffer (Bytes.overwrite buffer s.start bytes)⟩

theorem writeHeld (place : span? a bytes.length = some s) (room : m.Holds s) :
    ∃ m', m.write? a bytes = some m' ∧ m.Written s bytes m' := by
  obtain ⟨located, size⟩ := spanIff.mp place
  obtain ⟨buffer, found, inside⟩ := room
  exact ⟨_, writeLocated located found (size ▸ inside), size.symm, buffer, found, inside, rfl⟩

theorem Written.outside (written : m.Written s bytes m') {k j : Nat} (outside : ¬ s.Covers k j) :
    m'.byte? k j = m.byte? k j := by
  obtain ⟨size, buffer, found, inside, rfl⟩ := written
  rw [byte?, byte?, List.getElem?_set]
  split
  · rename_i same
    subst same
    have low := (List.getElem?_eq_some_iff.mp found).1
    rw [← size] at inside
    rw [if_pos low, found]
    refine Bytes.overwriteOutside inside ?_
    rw [Span.Covers] at outside
    omega
  · rfl

theorem Written.apart (written : m.Written s bytes m')
    (apart : ∀ r, span? b n = some r → s.Apart r) : m'.read? b n = m.read? b n := by
  obtain ⟨size, buffer, found, inside, rfl⟩ := written
  rw [← size] at inside
  cases located : locate? b with
  | none => simp [read?, located]
  | some place =>
    obtain ⟨k, start⟩ := place
    have other := apart ⟨k, start, n⟩ (spanIff.mpr ⟨located, rfl⟩)
    simp only [read?, located, Option.bind_eq_bind, Option.bind_some, List.getElem?_set]
    split
    · rename_i same
      subst same
      have low := (List.getElem?_eq_some_iff.mp found).1
      have ranges := other rfl
      rw [← size] at ranges
      rw [if_pos low, found, Option.bind_some, Option.bind_some, Bytes.overwriteLength inside,
        Bytes.sliceOutside inside ranges.symm]
    · rfl

theorem Written.within (written : m.Written s bytes m') {j : Nat}
    (place : locate? b = some (s.buffer, s.start + j)) (within : j + n ≤ s.size) :
    m'.read? b n = some (Bytes.slice bytes j n) := by
  obtain ⟨size, buffer, found, inside, rfl⟩ := written
  rw [← size] at inside within
  have low := (List.getElem?_eq_some_iff.mp found).1
  have length := Bytes.overwriteLength inside
  rw [← Bytes.sliceInside inside within]
  refine readLocated place (List.getElem?_set_self low) ?_
  rw [length]
  omega

end Memory

namespace Machine

def Loads (t : Ty) (memory : Memory) (a w : Word) : Prop :=
  ∀ (m : Machine) (s : State) (i : Instr) (base offset : Word), m.domain = .ieee →
    s.memory = memory → i.op = .load → i.type = t → base ≠ 0 → base + offset = a →
    m.access s i [base, offset] = .ok (some w, memory)

def Stores (t : Ty) (memory : Memory) (a w : Word) (memory' : Memory) : Prop :=
  ∀ (m : Machine) (s : State) (i : Instr) (base offset : Word), m.domain = .ieee →
    s.memory = memory → i.op = .store → i.type = t → base ≠ 0 → base + offset = a →
    m.access s i [base, w, offset] = .ok (none, memory')

section Accesses

variable {t u : Ty} {memory memory' : Memory} {a b w v : Word} {bytes : List UInt8}
  {s : Memory.Span}

theorem accessLoad {m : Machine} {s : State} {i : Instr} {base offset : Word} (op : i.op = .load)
    (nonzero : base ≠ 0) : m.access s i [base, offset] =
      (loadFrom m.domain s.frame i s.memory (base + offset)).map fun w => (some w, s.memory) := by
  simp only [access, op, target, if_neg nonzero]
  rfl

theorem loadsRead (sized : t.size ≠ 0) (read : memory.read? a t.size = some bytes) :
    Loads t memory a (FloatDomain.ieee.load t bytes) := by
  rintro m s i base offset domain rfl op rfl nonzero rfl
  have size : FloatDomain.ieee.sizeOf i.type ≠ 0 := by rwa [ieeeSize]
  rw [← ieeeSize] at read
  rw [accessLoad op nonzero, domain, loadFrom]
  simp only [if_neg size, read]
  rfl

theorem loadsSame (read : memory'.read? b u.size = memory.read? b u.size)
    (loads : Loads u memory b v) : Loads u memory' b v := by
  rintro m s i base offset domain rfl op rfl nonzero rfl
  have before := loads m { s with memory := memory } i base offset domain rfl op rfl nonzero rfl
  have same : loadFrom m.domain s.frame i s.memory (base + offset) =
      loadFrom m.domain s.frame i memory (base + offset) := by
    rw [loadFrom, loadFrom, domain, ieeeSize, read]
  rw [accessLoad op nonzero] at before ⊢
  rw [same]
  cases loaded : loadFrom m.domain s.frame i memory (base + offset) with
  | error e =>
    rw [loaded] at before
    cases before
  | ok w =>
    rw [loaded] at before
    cases before
    rfl

theorem storesWrite (plain : t.isInteger = true ∨ t = .f64)
    (write : memory.write? a (Bytes.ofWord t.size w) = some memory') :
    Stores t memory a w memory' := by
  rintro m s i base offset domain rfl op rfl nonzero rfl
  have bytes : FloatDomain.ieee.store i.type w = Bytes.ofWord i.type.size w :=
    FloatDomain.ieeeStore plain w
  have filled : (Bytes.ofWord i.type.size w).isEmpty = false := by
    rw [List.isEmpty_eq_false_iff, ← List.length_pos_iff, Bytes.ofWordLength]
    exact (Ty.plainSize plain).1
  simp only [access, op, domain, target, if_neg nonzero, storeTo, bytes, filled, write,
    Frame.orTrap, bind, Except.bind]
  rfl

theorem loadsPart (written : memory.Written s (Bytes.ofWord t.size w) memory')
    (plain : u.isInteger = true ∨ u = .f64) {j : Nat} (within : j + u.size ≤ t.size)
    (place : Memory.locate? b = some (s.buffer, s.start + j)) :
    ∃ x : Word, x.toNat = w.toNat / 2 ^ (8 * j) % 2 ^ (8 * u.size) ∧
      Loads u memory' b (Word.normalize u x) := by
  obtain ⟨filled, few, -⟩ := Ty.plainSize plain
  have size : t.size = s.size := (Bytes.ofWordLength t.size w).symm.trans written.size
  have read := written.within place (size ▸ within)
  have loads := loadsRead (Nat.ne_of_gt filled) read
  rw [FloatDomain.ieeeLoad plain] at loads
  exact ⟨_, Bytes.pieceNat within few w, loads⟩

/-- A store leaves the bytes outside its range as they are, and its range holds the value: a load of
the type finds it again, a double with all its bits, and a load of a part finds the digits that
lie there, with the sign of their own highest one. -/
theorem memoryKeepsStores (w : Word) (plain : t.isInteger = true ∨ t = .f64)
    (place : Memory.span? a t.size = some s) (room : memory.Holds s) :
    ∃ memory', Stores t memory a w memory' ∧ Loads t memory' a (Word.normalize t w) ∧
      (∀ k j, ¬ s.Covers k j → memory'.byte? k j = memory.byte? k j) ∧
      (∀ u b, (∀ r, Memory.span? b u.size = some r → s.Apart r) →
        ∀ v, Loads u memory' b v ↔ Loads u memory b v) ∧
      ∀ u j b, u.sized = true → j + u.size ≤ t.size →
        Memory.locate? b = some (s.buffer, s.start + j) → ∃ v, Loads u memory' b v ∧
          v.toInt64.toInt = (w.toInt64.toInt / 2 ^ (8 * j)).bmod (2 ^ u.width) := by
  obtain ⟨-, few, wide⟩ := Ty.plainSize plain
  have length : t.size = (Bytes.ofWord t.size w).length := (Bytes.ofWordLength t.size w).symm
  obtain ⟨memory', write, written⟩ := Memory.writeHeld (length ▸ place) room
  refine ⟨memory', storesWrite plain write, ?_, fun k j => written.outside,
    fun u b apart v => ?_, fun u j b sized within part => ?_⟩
  -- The whole is the part that begins with the first byte.
  · have start : 0 + t.size ≤ t.size := Nat.le_of_eq (Nat.zero_add _)
    obtain ⟨x, digits, loads⟩ := loadsPart written plain start (Memory.spanIff.mp place).1
    have same : x.toNat % 2 ^ t.width = w.toNat % 2 ^ t.width := by
      rw [digits, Nat.mul_zero, Nat.pow_zero, Nat.div_one]
      exact Nat.mod_mod_of_dvd _ (Nat.pow_dvd_pow 2 wide)
    rwa [Word.normalizeCongr same] at loads
  · have same := written.apart apart
    exact ⟨loadsSame same.symm, loadsSame same⟩
  · obtain ⟨integer, width⟩ := Ty.sizedSize sized
    obtain ⟨x, digits, loads⟩ := loadsPart written (.inl integer) within part
    rw [← width] at digits
    exact ⟨_, loads, Word.pieceInt sized (by omega) digits⟩

end Accesses

section Desk

def desk : Memory := Memory.empty.allocate [4, 8]

def onDesk (offset : Nat) : Word := Memory.address 1 0 + UInt64.ofNat offset

theorem numberKept : ∃ m, Stores .i32 desk (onDesk 2) 0xffffffff80017ffe m ∧
    Loads .i32 m (onDesk 2) 0xffffffff80017ffe ∧
    (∃ v, Loads .i16 m (onDesk 2) v ∧ v.toInt64.toInt = 32766) ∧
    (∃ v, Loads .i16 m (onDesk 4) v ∧ v.toInt64.toInt = -32767) ∧
    (∃ v, Loads .i8 m (onDesk 2) v ∧ v.toInt64.toInt = -2) ∧
    ∀ v, Loads .i16 m (onDesk 0) v ↔ Loads .i16 desk (onDesk 0) v := by
  have located {offset : Nat} (small : offset < 8) :
      Memory.locate? (onDesk offset) = some (1, offset) :=
    Memory.locateAddress (by decide) (Nat.lt_trans small (by decide))
  have place : Memory.span? (onDesk 2) (Ty.size .i32) = some ⟨1, 2, 4⟩ :=
    Memory.spanIff.mpr ⟨located (by decide), rfl⟩
  have before : Memory.span? (onDesk 0) (Ty.size .i16) = some ⟨1, 0, 2⟩ :=
    Memory.spanIff.mpr ⟨located (by decide), rfl⟩
  have room : desk.Holds ⟨1, 2, 4⟩ := ⟨List.replicate 8 0, rfl, by decide⟩
  obtain ⟨m, stores, loads, -, others, parts⟩ :=
    memoryKeepsStores 0xffffffff80017ffe (.inl rfl) place room
  refine ⟨m, stores, loads, ?_, ?_, ?_, others .i16 _ fun r found => ?_⟩
  · exact parts .i16 0 _ rfl (by decide) (located (by decide))
  · exact parts .i16 2 _ rfl (by decide) (located (by decide))
  · exact parts .i8 0 _ rfl (by decide) (located (by decide))
  · cases before.symm.trans found
    exact fun _ => .inr (by decide)

end Desk

end Machine
end FixedIL
