/-!
Little-endian bytes of words.
-/
namespace FixedIL.Bytes

def ofWord : Nat → UInt64 → List UInt8
  | 0, _ => []
  | n + 1, w => w.toUInt8 :: ofWord n (w >>> 8)

def toWord : List UInt8 → UInt64
  | [] => 0
  | b :: rest => b.toUInt64 ||| (toWord rest <<< 8)

theorem ofWordLength (n : Nat) (w : UInt64) : (ofWord n w).length = n := by
  induction n generalizing w with
  | zero => rfl
  | succ n ih => simp [ofWord, ih]

def overwrite (buffer : List UInt8) (offset : Nat) (bytes : List UInt8) : List UInt8 :=
  buffer.take offset ++ bytes ++ buffer.drop (offset + bytes.length)

theorem overwriteLength {buffer bytes : List UInt8} {offset : Nat}
    (inside : offset + bytes.length ≤ buffer.length) :
    (overwrite buffer offset bytes).length = buffer.length := by
  simp [overwrite]
  omega

def slice (buffer : List UInt8) (offset n : Nat) : List UInt8 := (buffer.drop offset).take n

end FixedIL.Bytes
