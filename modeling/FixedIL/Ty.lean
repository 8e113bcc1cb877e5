/-!
The scalar types of the language, with their names and sizes.
-/
namespace FixedIL

inductive Ty where
  | void
  | i1
  | i8
  | i16
  | i32
  | i64
  | f32
  | f64
  | ptr
  deriving DecidableEq, Repr

namespace Ty

instance : Inhabited Ty := ⟨.void⟩

def all : List Ty := [.void, .i1, .i8, .i16, .i32, .i64, .f32, .f64, .ptr]

theorem memAll (t : Ty) : t ∈ all := by cases t <;> decide

def name : Ty → String
  | .void => "void"
  | .i1 => "i1"
  | .i8 => "i8"
  | .i16 => "i16"
  | .i32 => "i32"
  | .i64 => "i64"
  | .f32 => "f32"
  | .f64 => "f64"
  | .ptr => "ptr"

theorem nameInjective {s t : Ty} (h : s.name = t.name) : s = t := by
  cases s <;> cases t <;> first | rfl | exact absurd h (by decide)

def size : Ty → Nat
  | .void => 0
  | .i1 | .i8 => 1
  | .i16 => 2
  | .i32 | .f32 => 4
  | .i64 | .f64 | .ptr => 8

def isInteger : Ty → Bool
  | .i1 | .i8 | .i16 | .i32 | .i64 => true
  | _ => false

def isFloat : Ty → Bool
  | .f32 | .f64 => true
  | _ => false

def width : Ty → Nat
  | .i1 => 1
  | .i8 => 8
  | .i16 => 16
  | .i32 => 32
  | _ => 64

end Ty
end FixedIL
