import FixedIL.Number.Binary64

/-!
Decimal text of doubles. `general p` keeps `p` significant digits, drops the zeros
behind the point and writes an exponent outside `-4 ≤ x < p`. `literal` is the
spelling of a float literal: the first precision from six up that reads back.
-/
namespace FixedIL.Decimal

structure Scientific where
  digits : Nat
  power : Int
  deriving DecidableEq, Repr

def roundDiv (num den : Nat) : Nat :=
  let low := num / den
  let twice := 2 * (num % den)
  if twice < den then low
  else if den < twice then low + 1
  else if low % 2 = 0 then low else low + 1

def ratio (m : Nat) (e : Int) : Nat × Nat :=
  if 0 ≤ e then (m * Nat.pow 2 e.toNat, 1) else (m, Nat.pow 2 (-e).toNat)

def decimalRatio (n : Nat) (k : Int) : Nat × Nat :=
  if 0 ≤ k then (n * Nat.pow 10 k.toNat, 1) else (n, Nat.pow 10 (-k).toNat)

def le (a b : Nat × Nat) : Bool := a.1 * b.2 ≤ b.1 * a.2

def lt (a b : Nat × Nat) : Bool := a.1 * b.2 < b.1 * a.2

/- The binary exponent of a positive `m * 2 ^ e` times log10 2 is within one of
the decimal exponent, so one of three candidates is right. -/
def tenPower (m : Nat) (e : Int) : Int :=
  let estimate := ((Nat.log2 m + e) * 1233) / 4096
  let v := ratio m e
  if le (decimalRatio 1 (estimate + 1)) v then estimate + 1
  else if le (decimalRatio 1 estimate) v then estimate
  else estimate - 1

def round (precision m : Nat) (e : Int) : Scientific :=
  if m = 0 then ⟨0, 0⟩
  else
    let power := tenPower m e
    let v := ratio m e
    let scale := decimalRatio 1 (precision - 1 - power)
    let digits := roundDiv (v.1 * scale.1) (v.2 * scale.2)
    if digits = Nat.pow 10 precision then ⟨Nat.pow 10 (precision - 1), power + 1⟩
    else ⟨digits, power⟩

def dropZeros (cs : List Char) : List Char := (cs.reverse.dropWhile (· == '0')).reverse

def pointed (whole fraction : List Char) : String :=
  let kept := dropZeros fraction
  String.ofList (if kept.isEmpty then whole else whole ++ '.' :: kept)

def exponentText (x : Int) : String :=
  let n := toString x.natAbs
  "e" ++ (if x < 0 then "-" else "+") ++ (if n.length < 2 then "0" ++ n else n)

def layout (precision : Nat) (s : Scientific) : String :=
  let digits := if s.digits = 0 then List.replicate precision '0' else (toString s.digits).toList
  if -4 ≤ s.power ∧ s.power < precision then
    if 0 ≤ s.power then
      let whole := s.power.toNat + 1
      pointed (digits.take whole) (digits.drop whole)
    else pointed ['0'] (List.replicate (-s.power - 1).toNat '0' ++ digits)
  else pointed (digits.take 1) (digits.drop 1) ++ exponentText s.power

def signed (negative : Bool) (text : String) : String := if negative then "-" ++ text else text

def general (precision : Nat) : Binary64 → String
  | .nan => "nan"
  | .infinite negative => signed negative "inf"
  | .finite negative m e => signed negative (layout precision (round precision m e))

def largest (m : Nat) (e : Int) : Bool := m = Nat.pow 2 53 - 1 ∧ e = 971

/-- The decimal is read as `m * 2 ^ e`: it lies in the interval that rounds to that
value. The ends belong to it if `m` is even, the interval of the largest value has no
upper end, and below a power of two the grid is twice as fine. -/
def readsAs (s : Scientific) (precision m : Nat) (e : Int) : Bool :=
  let d := decimalRatio s.digits (s.power - (precision - 1))
  let below : Nat × Nat :=
    if m = Nat.pow 2 52 ∧ -1074 < e then ratio (4 * m - 1) (e - 2) else ratio (2 * m - 1) (e - 1)
  let above := ratio (2 * m + 1) (e - 1)
  if m = 0 then s.digits = 0
  else
    let inside := fun a b => if m % 2 = 0 then le a b else lt a b
    inside below d && (largest m e || inside d above)

def leastPrecision (m : Nat) (e : Int) (p : Nat) : Nat → Nat
  | 0 => p
  | more + 1 => if readsAs (round p m e) p m e then p else leastPrecision m e (p + 1) more

def minDigits : Nat := 6
def maxDigits : Nat := 17

def looksInteger (text : String) : Bool := text.toList.all (fun c => !".eEni".toList.contains c)

/-- A float literal never looks like an integer. -/
def literal (x : Float) : String :=
  let v := Binary64.ofFloat x
  let text := match v with
    | .finite _ m e => general (leastPrecision m e minDigits (maxDigits - minDigits)) v
    | _ => general maxDigits v
  if looksInteger text then text ++ ".0" else text

end FixedIL.Decimal
