/-!
Floats as exact numbers. A finite double is `m * 2 ^ e` with a sign; rounding to
an integer, the remainder and the way back to a float work on those parts.
-/
namespace FixedIL

inductive Binary64 where
  | nan
  | infinite (negative : Bool)
  | finite (negative : Bool) (m : Nat) (e : Int)
  deriving DecidableEq, Repr

namespace Binary64

def ofBits (bits : UInt64) : Binary64 :=
  let negative := bits >>> 63 != 0
  let exponent := ((bits >>> 52) &&& 0x7ff).toNat
  let fraction := (bits &&& 0xfffffffffffff).toNat
  if exponent = 2047 then
    if fraction = 0 then .infinite negative else .nan
  else if exponent = 0 then .finite negative fraction (-1074)
  else .finite negative (fraction + Nat.pow 2 52) (exponent - 1075)

def ofFloat (x : Float) : Binary64 := ofBits x.toBits

def signBit (negative : Bool) : UInt64 := if negative then 0x8000000000000000 else 0

def signed (negative : Bool) (n : Nat) : Int := if negative then -(n : Int) else n

def truncNat (m : Nat) (e : Int) : Nat :=
  if 0 ≤ e then m * Nat.pow 2 e.toNat else m / Nat.pow 2 (-e).toNat

def roundNat (m : Nat) (e : Int) : Nat :=
  if 0 ≤ e then m * Nat.pow 2 e.toNat
  else (2 * m + Nat.pow 2 (-e).toNat) / (2 * Nat.pow 2 (-e).toNat)

def clamp (lo hi v : Int) : Int := if v < lo then lo else if hi < v then hi else v

def truncateWithin (lo hi : Int) : Binary64 → Int
  | .nan => 0
  | .infinite negative => if negative then lo else hi
  | .finite negative m e => clamp lo hi (signed negative (truncNat m e))

def roundScaledWithin (lo hi : Int) (shift : Int) : Binary64 → Int
  | .nan => 0
  | .infinite negative => if negative then lo else hi
  | .finite negative m e => clamp lo hi (signed negative (roundNat m (e + shift)))

/- The bits of `m * 2 ^ e` where `m < 2 ^ 53` and `-1074 ≤ e`: the significand is
shifted up to 53 bits as far as the exponent allows. -/
def encode (negative : Bool) (m : Nat) (e : Int) : UInt64 :=
  if m = 0 then signBit negative
  else
    let up := min (52 - Nat.log2 m) (e + 1074).toNat
    let big := m * Nat.pow 2 up
    let biased : Nat := if big < Nat.pow 2 52 then 0 else (e - up + 1075).toNat
    signBit negative ||| (biased.toUInt64 <<< 52) ||| (big % Nat.pow 2 52).toUInt64

def nanBits : UInt64 := 0x7ff8000000000000

def toBits : Binary64 → UInt64
  | .nan => nanBits
  | .infinite negative => signBit negative ||| 0x7ff0000000000000
  | .finite negative m e => encode negative m e

def isZero : Binary64 → Bool
  | .finite _ m _ => m == 0
  | _ => false

def remainder : Binary64 → Binary64 → Binary64
  | .finite negative m e, .finite _ m' e' =>
    if m' = 0 then .nan
    else
      let low := min e e'
      let left := m * Nat.pow 2 (e - low).toNat
      let right := m' * Nat.pow 2 (e' - low).toNat
      .finite negative (left % right) low
  | .finite negative m e, .infinite _ => .finite negative m e
  | _, _ => .nan

end Binary64
end FixedIL
