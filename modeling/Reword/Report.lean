import Reword.Diagnostic.Record
/-!
# Run reports

A run report says where a run looked, how many files it read, which files it changed, how many
occurrences it replaced, and what failed. Its text lists the changed files under a count, then
counts the files that failed: the distinct paths of reading and writing diagnostics, a
diagnostic without a path counting as one more path. A bare record belongs to no category and
never counts.
-/

namespace Reword

/-- The summary of one run. -/
structure RunReport where
  root : String
  extension : String
  scannedFiles : Nat
  updatedFiles : List String
  totalReplacements : Nat
  errors : List Diagnostic
deriving DecidableEq, Repr

namespace RunReport

/-- The paths of the files that could not be read or written among records, each once. -/
def failedAmong (rs : List Record) : List (Option String) :=
  ((rs.filter fun r => r.category? = some .read ∨ r.category? = some .write).map
    Record.filePath).eraseDups

/-- The paths of the files that could not be read or written, each once. -/
def failedFiles (r : RunReport) : List (Option String) :=
  failedAmong (r.errors.map .coded)

/-- The text of a report: the count of changed files, one line per changed file, and the count
of failed files if any failed. -/
def textOf (updated : List String) (failed : Nat) : String :=
  "\n".intercalate
    ((("Updated " ++ toString updated.length ++ " files") ::
      updated.map ("  - " ++ ·)) ++
      (if failed = 0 then [] else ["Failed to process " ++ toString failed ++ " files"]))

/-- The report as text. -/
def text (r : RunReport) : String :=
  textOf r.updatedFiles r.failedFiles.length

end RunReport

end Reword
