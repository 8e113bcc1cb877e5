import FixedIL.Bytes

/-!
Memory: one buffer of bytes for each frame slot in use, the newest last. An address is
the number of a buffer, counted from one, above 32 bits of offset; zero is no address.
-/
namespace FixedIL

structure Memory where
  buffers : List (List UInt8)
  deriving DecidableEq, Repr

namespace Memory

def empty : Memory := ⟨[]⟩

def address (buffer : Nat) (offset : Int64) : UInt64 :=
  (UInt64.ofNat (buffer + 1) <<< 32) + offset.toUInt64

def locate? (a : UInt64) : Option (Nat × Nat) :=
  match (a >>> 32).toNat with
  | 0 => none
  | n + 1 => some (n, (a &&& 0xffffffff).toNat)

def read? (m : Memory) (a : UInt64) (n : Nat) : Option (List UInt8) := do
  let (k, offset) ← locate? a
  let buffer ← m.buffers[k]?
  if offset + n ≤ buffer.length then some (Bytes.slice buffer offset n) else none

def write? (m : Memory) (a : UInt64) (bytes : List UInt8) : Option Memory := do
  let (k, offset) ← locate? a
  let buffer ← m.buffers[k]?
  if offset + bytes.length ≤ buffer.length then
    some ⟨m.buffers.set k (Bytes.overwrite buffer offset bytes)⟩
  else none

/-- A zeroed buffer for each size; even an empty slot has an address of its own. -/
def allocate (m : Memory) (sizes : List Nat) : Memory :=
  ⟨m.buffers ++ sizes.map (fun n => List.replicate (max n 1) 0)⟩

def release (m : Memory) (first : Nat) : Memory := ⟨m.buffers.take first⟩

theorem releaseAllocate (m : Memory) (sizes : List Nat) :
    (m.allocate sizes).release m.buffers.length = m := by
  simp [allocate, release]

end Memory
end FixedIL
