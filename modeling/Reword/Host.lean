import Reword.Volume.Fault
import Reword.Json.Reader
import Reword.Diagnostic.Basic
/-!
# The host

What a run takes from the process it runs in and does not change: the working directory and
whether it has been removed, the creation mask, the name a temporary file gets beside the file
it will replace, and the wording of a fault in JSON text, which belongs to the reader of the
host and not to the program.

A temporary name carries a number: the process counts the temporary files it names, and each
write names its file with the next number.

A fault is what a step below the level of diagnostics fails with: a call on the file system, a
file that is not UTF-8, a text too long for a string, a root that is not a directory, or a rules
text that is not JSON. Its cause is its text and, where it has one, its error code.
-/

namespace Reword

/-- The fixed surroundings of a run. -/
structure Host where
  /-- The absolute working directory. -/
  cwd : String
  /-- Whether the working directory has been removed, so that asking the process for it fails. -/
  cwdRemoved : Bool := false
  /-- The permission bits a new file does not get. -/
  umask : Nat := 0o022
  /-- The name of the temporary file numbered `n` that will replace the file of the given name. -/
  tempName : String → Nat → String
  /-- How many temporary files the process has named before. -/
  tempsNamed : Nat := 0
  /-- The text of a fault in the given JSON text. -/
  jsonFaultText : String → JsonFault → String

namespace Host

/-- A host whose temporary files are named `.name.id.n.tmp` for a process number `id`. -/
def standard (cwd : String) (processId : Nat) : Host where
  cwd := cwd
  tempName := fun name n => "." ++ name ++ "." ++ toString processId ++ "." ++ toString n ++ ".tmp"
  jsonFaultText := JsonFault.describe

/-- The fault of asking the process for a working directory that has been removed. -/
def cwdFault : SysFault :=
  ⟨.noEntry, "uv_cwd", none, none⟩

end Host

/-- A failed call as the cause of a diagnostic. -/
def SysFault.cause (f : SysFault) : Cause :=
  ⟨f.message, some f.errno.code⟩

/-- A failure below the level of diagnostics. -/
inductive Fault where
  /-- A call on the file system failed. -/
  | system (f : SysFault)
  /-- A file is not well-formed UTF-8. -/
  | undecodable
  /-- A text has more bytes than a string may be made of. -/
  | stringTooLong
  /-- A root is not a directory. -/
  | notDirectory (path : String)
  /-- A text is not JSON. -/
  | malformedJson (source : String) (f : JsonFault)
deriving DecidableEq, Repr

namespace Fault

/-- The text of a fault. -/
def message (host : Host) : Fault → String
  | .system f => f.message
  | .undecodable => "The encoded data was not valid for encoding utf-8"
  | .stringTooLong => "Cannot create a string longer than 0x1fffffe8 characters"
  | .notDirectory p => "Not a directory: " ++ p
  | .malformedJson source f => host.jsonFaultText source f

/-- The error code of a fault, if it has one. -/
def errno : Fault → Option String
  | .system f => some f.errno.code
  | .undecodable => some Cause.invalidEncodingErrno
  | .stringTooLong => some "ERR_STRING_TOO_LONG"
  | _ => none

/-- The fault as the cause of a diagnostic. -/
def cause (host : Host) : Fault → Cause
  | .system f => f.cause
  | f => ⟨f.message host, f.errno⟩

end Fault

end Reword
