import Reword.Diagnostic.Basic
/-!
# Log lines

What a run writes as it goes: plain lines, warnings and errors, in the order they arise. A
diagnostic is logged as its log text, as a warning when its severity is a warning and as an
error otherwise.
-/

namespace Reword

/-- The channel of a log line. -/
inductive Level where
  | log
  | warn
  | error
deriving DecidableEq, Repr

/-- One line written during a run. -/
structure LogLine where
  level : Level
  text : String
deriving DecidableEq, Repr

/-- The log line of a diagnostic. -/
def Diagnostic.logLine (d : Diagnostic) : LogLine :=
  ⟨if d.severity = .warning then .warn else .error, d.logText⟩

end Reword
