import FixedIL.Ty

/-!
Signatures of functions and externs. A parameter may be the hidden buffer through
which a callee writes its results.
-/
namespace FixedIL

inductive Purpose where
  | normal
  | structReturn
  deriving DecidableEq, Repr

structure Slot where
  type : Ty
  purpose : Purpose
  deriving DecidableEq, Repr

structure Signature where
  params : List Slot
  returns : List Slot
  deriving DecidableEq, Repr

def Slot.text (s : Slot) : String :=
  (if s.purpose = .structReturn then "sret " else "") ++ s.type.name

namespace Signature

instance : Inhabited Signature := ⟨⟨[], []⟩⟩

def ofTypes (params returns : List Ty) : Signature :=
  ⟨params.map (⟨·, .normal⟩), returns.map (⟨·, .normal⟩)⟩

def structReturnIndex? (s : Signature) : Option Nat :=
  s.params.findIdx? (fun p => p.purpose = .structReturn)

def normalParamTypes (s : Signature) : List Ty :=
  (s.params.filter (fun p => p.purpose = .normal)).map Slot.type

def returnTypes (s : Signature) : List Ty := s.returns.map Slot.type

def mentionsFloat (s : Signature) : Bool :=
  s.params.any (·.type.isFloat) || s.returns.any (·.type.isFloat)

def mapTypes (f : Ty → Ty) (s : Signature) : Signature :=
  ⟨s.params.map (fun p => { p with type := f p.type }),
    s.returns.map (fun r => { r with type := f r.type })⟩

def listText (xs : List Slot) : String := "(" ++ ", ".intercalate (xs.map Slot.text) ++ ")"

def text (s : Signature) : String := listText s.params ++ " -> " ++ listText s.returns

end Signature
end FixedIL
