import FixedIL.Lowering.Convert
import FixedIL.Pass

/-!
Lowering as a pass: floats become the storage type of the format, float literals their
encodings, and externs that mention floats are dropped.
-/
namespace FixedIL.Lowering

def mapTy (format : Fixed.Format) (t : Ty) : Ty := if t.isFloat then format.storage else t

theorem plainType {format : Fixed.Format} {t : Ty} (free : t.isFloat = false) :
    mapTy format t = t := by
  simp [mapTy, free]

def mapLiteral (x : Float) : Value := .int (Fixed.ofFloat x).toInt64

def keepExterns (format : Fixed.Format) (p : Program) : Except LoweringError (List Extern) :=
  if format.isSupported then .ok (p.externs.filter (fun e => !e.sig.mentionsFloat))
  else .error (.unsupportedFormat format.name)

def pass (c : Config) : Pass where
  name := "fixed32"
  encoding := ⟨mapTy c.format, mapLiteral⟩
  keepExterns := keepExterns c.format
  convert := instr c

end FixedIL.Lowering
