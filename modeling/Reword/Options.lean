import Reword.Text.Blank
import Reword.Host
import Reword.Volume.Lookup
import Reword.Text.Utf8
import Reword.Rules.Document
import Reword.Substitution.Bundled
/-!
# Run options

Options name the root, the working directory the root and the rules file are read from, the
extension, and the rules: a table, a list of rules, or a rules file; with none of them the
bundled table is used. Settling options resolves the working directory and the root, checks the
extension, then builds the table, in that order, so that the first of several faults is the one
reported. A working directory that is not given as an absolute path needs the process's own,
and asking for that once it has been removed throws a plain error, not a diagnostic.

The extension that selects files is trimmed of blanks and given a leading dot if it has none. An
extension that is blank, or a lone dot, is refused as an invalid option.

A rules file is read as UTF-8 with U+FFFD for bad bytes, then as JSON, then as a rule document;
a file that cannot be read, has more bytes than a string may be made of, or is not JSON is
reported with the fault underneath it.

What a run throws instead of reporting is a diagnostic raised, a plain error of the process, or
the engine's refusal to make a string too long. A run can also never return: finding a
canonical path may never end (`Errno.endless`), and nothing is thrown then.
-/

namespace Reword

/-- Where a run takes its rules from. -/
inductive RuleSource where
  | table (t : Table)
  | rules (rs : List Rule)

/-- What a caller may ask of a run; every field may be left out. -/
structure Options where
  root : Option String := none
  cwd : Option String := none
  extension : Option String := none
  rules : Option RuleSource := none
  rulesFile : Option String := none

/-- Settled options: an absolute root, an extension with its dot, and a table. -/
structure Settings where
  root : String
  extension : String
  table : Table

/-- What ends a run without a report: a diagnostic raised as an exception, a call of the process
that fails with its own error, the engine's refusal to make a text longer than a string may be,
or a canonical path search that never ends, which throws nothing as the run never returns. -/
inductive Thrown where
  | raised (d : Diagnostic)
  | fault (f : SysFault)
  | tooLong
  | endless (path : String)
deriving DecidableEq, Repr

/-- The diagnostic a stopped run reports: the one raised, and the unknown code for a plain error
or the engine's refusal, whose text is both the parameter and the details. A run that never
returns reports nothing; its diagnostic names the path whose search never ends. -/
def Thrown.diagnostic : Thrown → Diagnostic
  | .raised d => d
  | .fault f => Diagnostic.make .unknown [f.message] none (some f.cause)
  | .tooLong =>
    Diagnostic.make .unknown [Table.tooLongMessage] none (some ⟨Table.tooLongMessage, none⟩)
  | .endless path => Diagnostic.make .unknown [path]

namespace Options

/-- The extension used when none is given. -/
def defaultExtension : String := ".kt"

/-- The root used when none is given. -/
def defaultRoot : String := "."

/-- The diagnostic for an option `field` whose value cannot be used, for the reason `why`. -/
def invalid (why field : String) : Diagnostic :=
  Diagnostic.make .invalidOption [why, field]

/-- The extension trimmed of blanks and starting with a dot; blank or a lone dot is refused. -/
def normalizeExtension (extension : String) : Except Diagnostic String :=
  let trimmed := Text.trimBlank extension
  if trimmed = "" ∨ trimmed = "." then
    .error (invalid ("文件后缀不能为空: \"" ++ extension ++ "\"") "extension")
  else if trimmed.startsWith "." then .ok trimmed
  else .ok ("." ++ trimmed)

/-- The rules of a rules file at an absolute path. -/
def loadRules (host : Host) (v : Volume) (path : String) : Except Diagnostic (List Rule) :=
  let unloadable (f : Fault) : Diagnostic :=
    Diagnostic.make .rulesUnloadable [path] (some path) (some (f.cause host))
  match v.readFile path with
  | .error f => .error (unloadable (.system f))
  | .ok bytes =>
    if bytes.length > Text.maxUnits then .error (unloadable .stringTooLong) else
    let text := Text.Utf8.decodeLossy bytes
    match Json.parse text with
    | .error f => .error (unloadable (.malformedJson text f))
    | .ok doc => Rule.ofDocument doc path

/-- The table of a list of rules; a rule that cannot stand in a table makes the rules an
invalid option. -/
def tableOf (rules : List Rule) : Except Diagnostic Table :=
  (Table.ofRules rules).mapError fun e => invalid e.message "rules"

/-- The absolute working directory the options name: their own resolved, which needs the
process's when it is not absolute, or the process's. -/
def workingDir (host : Host) (o : Options) : Except SysFault String :=
  if host.cwdRemoved ∧ !(o.cwd.any Path.isAbsolute) then .error Host.cwdFault
  else .ok (Path.resolve host.cwd (o.cwd.getD host.cwd))

/-- The table the options name, a rules file read from the working directory `cwd`: a table as
it is, rules or a rules file built into one, and otherwise the bundled table. -/
def table (host : Host) (v : Volume) (o : Options) (cwd : String) : Except Diagnostic Table :=
  match o.rules, o.rulesFile with
  | some (.table t), _ => .ok t
  | some (.rules rs), _ => tableOf rs
  | none, some file =>
    if file.isEmpty then .ok Table.bundled
    else (loadRules host v (Path.resolve cwd file)).bind tableOf
  | none, none => .ok Table.bundled

/-- Settles the options: the working directory, root, then extension, then table. -/
def settle (host : Host) (v : Volume) (o : Options) : Except Thrown Settings := do
  let cwd ← (o.workingDir host).mapError .fault
  let root := Path.resolve cwd (o.root.getD defaultRoot)
  let extension ← (normalizeExtension (o.extension.getD defaultExtension)).mapError .raised
  let table ← (o.table host v cwd).mapError .raised
  pure ⟨root, extension, table⟩

end Options

end Reword
