import FixedIL.Number.Decimal

/-!
Operands: a temporary or a literal. `text` is how the printer spells one.
-/
namespace FixedIL

abbrev TempId := UInt32

inductive Value where
  | temp (id : TempId)
  | int (n : Int64)
  | bool (b : Bool)
  | float (x : Float)
  | null
  deriving DecidableEq, Repr

namespace Value

def isTemp : Value → Bool
  | .temp _ => true
  | _ => false

def isFloat : Value → Bool
  | .float _ => true
  | _ => false

def tempText (id : TempId) : String := "%" ++ toString id.toNat

def text : Value → String
  | .temp id => tempText id
  | .int n => toString n.toInt
  | .bool b => if b then "true" else "false"
  | .float x => Decimal.literal x
  | .null => "null"

/-- Equality as the language sees it: floats by value, so that zeros of either sign
agree and NaN agrees with nothing. -/
def agrees : Value → Value → Bool
  | .float x, .float y => x == y
  | a, b => a = b

/-- What an integer literal holds: truth counts as one. -/
def intLiteral? : Value → Option Int64
  | .int n => some n
  | .bool b => some (if b then 1 else 0)
  | _ => none

end Value
end FixedIL
