/-!
Diagnostics. A diagnostic has a severity, a message, a place and sometimes a
stable code; `render` is its one-line text. A log keeps the reports in order.
-/
namespace FixedIL

structure Loc where
  file : UInt32
  line : UInt32
  column : UInt32
  deriving DecidableEq, Repr

namespace Loc

/- Lines and columns count from one, so zero stands for "not recorded". -/
def unknown : Loc := ⟨0, 0, 0⟩

instance : Inhabited Loc := ⟨unknown⟩

def hasLine (l : Loc) : Bool := l.line != 0

def hasColumn (l : Loc) : Bool := l.column != 0

def render (l : Loc) : String :=
  if l.hasLine then
    toString l.line.toNat ++
      (if l.hasColumn then ":" ++ toString l.column.toNat else "") ++ ": "
  else ""

end Loc

inductive Severity where
  | note
  | warning
  | error
  deriving DecidableEq, Repr

def Severity.name : Severity → String
  | .note => "note"
  | .warning => "warning"
  | .error => "error"

structure Diagnostic where
  severity : Severity
  message : String
  loc : Loc
  code : String
  deriving DecidableEq, Repr

namespace Diagnostic

def error (loc : Loc) (message : String) : Diagnostic := ⟨.error, message, loc, ""⟩

def render (d : Diagnostic) : String :=
  d.loc.render ++ d.severity.name ++
    (if d.code.isEmpty then "" else "[" ++ d.code ++ "]") ++ ": " ++ d.message ++ "\n"

end Diagnostic

structure DiagnosticLog where
  reports : List Diagnostic
  deriving DecidableEq, Repr

namespace DiagnosticLog

def empty : DiagnosticLog := ⟨[]⟩

def report (log : DiagnosticLog) (d : Diagnostic) : DiagnosticLog := ⟨log.reports ++ [d]⟩

def count (log : DiagnosticLog) (s : Severity) : Nat :=
  log.reports.countP (fun d => d.severity = s)

def render (log : DiagnosticLog) : String := String.join (log.reports.map Diagnostic.render)

theorem countReport (log : DiagnosticLog) (d : Diagnostic) (s : Severity) :
    (log.report d).count s = log.count s + if d.severity = s then 1 else 0 := by
  simp [report, count, List.countP_append, List.countP_cons]

end DiagnosticLog
end FixedIL
