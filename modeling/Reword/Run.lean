import Reword.Options
import Reword.TextFile
import Reword.Walk
import Reword.Log
import Reword.Report
/-!
# Runs

A run settles its options, checks that the root is a directory it can list, then walks the
root and substitutes into each file the walk gives. A file is read as UTF-8, the table is applied to
its text, and the result is written atomically only if the text changed; a file that cannot be read
or written is a failed outcome and the run goes on. Traversal diagnostics and failed outcomes
are logged as they arise and collected in the report, in the same order.

A file is identified in the report by its path relative to the root.

Only the read and the write of a file are guarded. Applying the table between them is not: a file
whose rewrite would be longer than a string may be (`Table.fits`) stops the whole run with the
engine's refusal, after the files before it were already written. A canonical path search that
never ends, of a directory the walk enters or of a file written, means the run never returns.

Each write that finds the file it replaces names its temporary file with the next number, so a
run also leaves the count of temporary files named.

The friendly form of a run never fails: a fault that stops the run becomes its only error, and
every diagnostic is also given as one text meant for a person.
-/

namespace Reword

/-- What happened to one file. -/
inductive Outcome where
  | changed (filePath id : String) (replacements : Nat)
  | unchanged (filePath id : String)
  | failed (filePath id : String) (error : Diagnostic)
deriving Repr

/-- What a run leaves: the volume after it, the lines it logged, its result, and how many
temporary files the process has named. -/
structure Ran (α : Type) where
  volume : Volume
  logs : List LogLine
  result : α
  named : Nat

/-- The result of a run in its friendly form. -/
structure Execution where
  success : Bool
  report : Option RunReport
  errors : List Diagnostic
  message : Option String

namespace Run

/-- The identifier of a file: its path relative to the root, both resolved. -/
def fileId (host : Host) (root path : String) : String :=
  Path.relative (Path.resolve host.cwd root) (Path.resolve host.cwd path)

/-- Applies a table to one file, writing the result back only when the text changed, through the
temporary file numbered `serial`. A text the table cannot be applied to on the engine throws, and
a write whose canonical path search never ends does not return. -/
def substituteFile (host : Host) (v : Volume) (table : Table) (path id : String) (serial : Nat) :
    Except Thrown (Volume × Outcome) :=
  match TextFile.read v path with
  | .error f => .ok (v, .failed path id ((f.cause host).diagnose path (some .read)))
  | .ok before =>
    if table.fits before then
      let applied := table.applyWithStats before
      if applied.text = before then .ok (v, .unchanged path id)
      else
        match TextFile.writeAtomic host v serial path applied.text with
        | (v, .error f) =>
          if f.errno = .endless then .error (.endless path)
          else .ok (v, .failed path id (f.cause.diagnose path (some .write)))
        | (v, .ok ()) => .ok (v, .changed path id applied.replacements)
    else .error .tooLong

/-- The temporary files named after a file's outcome, `count` named before: one more when the
file was written, or its write failed after finding the file it replaces. -/
def named (v : Volume) (path : String) (count : Nat) : Outcome → Nat
  | .changed .. => count + 1
  | .unchanged .. => count
  | .failed _ _ d =>
    match d.code, TextFile.target v path with
    | .writeFailed, .ok _ => count + 1
    | _, _ => count

/-- Checks that the root is a directory that can be listed. -/
def checkRoot (host : Host) (v : Volume) (root : String) : Except Diagnostic Unit :=
  let inaccessible (f : Fault) : Diagnostic :=
    Diagnostic.make .rootInaccessible [root] (some root) (some (f.cause host))
  match v.stat root with
  | .error f => .error (inaccessible (.system f))
  | .ok (.dir ..) =>
    match v.readDir root with
    | .error f => .error (inaccessible (.system f))
    | .ok _ => .ok ()
  | .ok _ => .error (inaccessible (.notDirectory root))

/-- Adds an outcome to a report, logging a failure. -/
def record (r : RunReport) (logs : List LogLine) : Outcome → RunReport × List LogLine
  | .changed _ id n =>
    ({ r with updatedFiles := r.updatedFiles ++ [id],
              totalReplacements := r.totalReplacements + n }, logs)
  | .unchanged .. => (r, logs)
  | .failed _ _ d => ({ r with errors := r.errors ++ [d] }, logs ++ [d.logLine])

/-- Pulls files from the walk and substitutes into each, at most `fuel` times, `count` temporary
files named before; a file that throws stops the run, and a pull or a write that never returns
ends it with nothing thrown. -/
def substituteAll (host : Host) (settings : Settings) :
    Nat → Volume → Nat → Walk → RunReport → List LogLine → Ran (Except Thrown RunReport)
  | 0, v, count, _, r, logs => ⟨v, logs, .ok r, count⟩
  | fuel + 1, v, count, w, r, logs =>
    let p := w.pull v
    let r := { r with errors := r.errors ++ p.errors }
    let logs := logs ++ p.errors.map Diagnostic.logLine
    match p.walk.endless, p.next with
    | some dir, _ => ⟨v, logs, .error (.endless dir), count⟩
    | none, none => ⟨v, logs, .ok r, count⟩
    | none, some path =>
      match substituteFile host v settings.table path (fileId host settings.root path) (count + 1) with
      | .error e => ⟨v, logs, .error e, count⟩
      | .ok (v', outcome) =>
        let (r, logs) := record { r with scannedFiles := r.scannedFiles + 1 } logs outcome
        substituteAll host settings fuel v' (named v path count outcome) p.walk r logs

/-- Processes every file below the root whose name ends with the extension. -/
def processFiles (host : Host) (v : Volume) (o : Options) : Ran (Except Thrown RunReport) :=
  match o.settle host v with
  | .error e => ⟨v, [], .error e, host.tempsNamed⟩
  | .ok s =>
    match checkRoot host v s.root with
    | .error d => ⟨v, [], .error (.raised d), host.tempsNamed⟩
    | .ok () =>
      let empty : RunReport := ⟨s.root, s.extension, 0, [], 0, []⟩
      substituteAll host s (Walk.pullLimit v) v host.tempsNamed (Walk.start host s.root s.extension)
        empty []

/-- The one text that tells a person about several diagnostics. -/
def summary (errors : List Diagnostic) : String :=
  "处理过程中发生了 " ++ toString errors.length ++ " 个错误:\n\n" ++
    "\n\n---------------\n\n".intercalate (errors.map Diagnostic.userText)

/-- Processes the files and gives the result in its friendly form, none when the run never
returns. -/
def execute (host : Host) (v : Volume) (o : Options) : Ran (Option Execution) :=
  let ran := processFiles host v o
  { ran with result :=
    match ran.result with
    | .error (.endless _) => none
    | .error e => some ⟨false, none, [e.diagnostic], some e.diagnostic.userText⟩
    | .ok r =>
      if r.errors.isEmpty then some ⟨true, some r, [], none⟩
      else some ⟨false, some r, r.errors, some (summary r.errors)⟩ }

end Run

end Reword
