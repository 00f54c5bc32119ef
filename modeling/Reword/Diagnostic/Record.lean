import Reword.Diagnostic.Basic
/-!
# Diagnostics asked for by name

A diagnostic may be asked for by the name of its code. The table of codes answers the names of
its codes, and also the member names that every table of its kind carries
(`Code.memberNames`); such a name finds a bare entry, with no code, template, category or
severity. Any other name finds nothing and reads as the unknown code.

A record made from a bare entry keeps only its file and the failure underneath. Filling its
missing templates with a parameter fails, and so does asking whether its missing message names
its file: each failure names the field that was read of nothing. Its texts spell the missing
code and message as `undefined`, it carries an empty message when raised, and it belongs to no
category.

A failure reaching a stage is a record already made, a plain failure, or nothing; the plain one
is turned into a diagnostic of the stage, and so is nothing, unless the stage is reading, which
looks at the error code of the failure.
-/

namespace Reword

/-- The member names that a table of codes carries besides its codes. -/
def Code.memberNames : List String :=
  ["constructor", "__defineGetter__", "__defineSetter__", "hasOwnProperty", "__lookupGetter__",
    "__lookupSetter__", "isPrototypeOf", "propertyIsEnumerable", "toString", "valueOf",
    "__proto__", "toLocaleString"]

/-- What a code name finds in the table of codes. -/
inductive Entry where
  /-- The entry of a code. -/
  | code (c : Code)
  /-- A member entry, without any of a code's fields. -/
  | bare
deriving DecidableEq, Repr

/-- The entry a name finds: a member name finds a bare entry, any other the code of the name. -/
def Code.lookup (name : String) : Entry :=
  if name ∈ Code.memberNames then .bare else .code (Code.ofIdent name)

/-- A field read of nothing: a named property, or the error code of a failure that is not
there. -/
inductive MissingField where
  /-- The property of the given name. -/
  | property (name : String)
  /-- The error code of a failure. -/
  | errorCode
deriving DecidableEq, Repr

/-- The text of reading a field of nothing. -/
def MissingField.message : MissingField → String
  | .property p => "Cannot read properties of undefined (reading '" ++ p ++ "')"
  | .errorCode => "Reflect.get called on non-object"

/-- A diagnostic made from a code name: a diagnostic, or a bare record with only a file and the
failure underneath. -/
inductive Record where
  | coded (d : Diagnostic)
  | bare (filePath : Option String) (cause : Option Cause)
deriving DecidableEq, Repr

namespace Record

/-- The record a code name gives with parameters, file and failure. A bare entry has no
template to fill, so any parameter fails. -/
def make (name : String) (params : List String) (filePath : Option String := none)
    (cause : Option Cause := none) : Except MissingField Record :=
  match Code.lookup name with
  | .code c => .ok (.coded (Diagnostic.make c params filePath cause))
  | .bare => if params.isEmpty then .ok (.bare filePath cause) else .error (.property "replace")

/-- The file a record concerns. -/
def filePath : Record → Option String
  | .coded d => d.filePath
  | .bare p _ => p

/-- The failure underneath a record. -/
def cause : Record → Option Cause
  | .coded d => d.cause
  | .bare _ c => c

/-- The category of a record; a bare record has none. -/
def category? : Record → Option Category
  | .coded d => some d.category
  | .bare .. => none

/-- The message a raised record carries; a bare record carries an empty one. -/
def raisedMessage : Record → String
  | .coded d => d.message
  | .bare .. => ""

/-- The details of a bare record: the failure's message when present, since there is no
message for it to repeat. -/
def bareDetails (c : Option Cause) : Option String :=
  Diagnostic.present (c.map Cause.message)

/-- The record as a log entry. -/
def logText : Record → String
  | .coded d => d.logText
  | .bare p c =>
    "[undefined] undefined" ++ ((Diagnostic.present p).map ("\n文件: " ++ ·)).getD "" ++
      ((bareDetails c).map ("\n详情: " ++ ·)).getD ""

/-- The record as told to a person. A bare record with a file cannot be told: whether its
message names the file is asked of a message it does not have. -/
def userText : Record → Except MissingField String
  | .coded d => .ok d.userText
  | .bare p c =>
    match Diagnostic.present p with
    | some _ => .error (.property "includes")
    | none => .ok ("错误(undefined): undefined" ++ ((bareDetails c).map ("\n原因: " ++ ·)).getD "")

end Record

/-- A failure as it reaches a stage: a record already made, a plain failure, or none at all. -/
inductive Failure where
  | raised (r : Record)
  | plain (c : Cause)
  | absent
deriving DecidableEq, Repr

/-- The record of a failure at a stage on a path: a raised record is kept, and a plain failure
becomes the stage's diagnostic. With no failure the diagnostic has nothing underneath, except
that reading asks for the error code of the failure, which is not there. -/
def Failure.diagnose (f : Failure) (path : String) (stage : Option Stage) :
    Except MissingField Record :=
  match f with
  | .raised r => .ok r
  | .plain c => .ok (.coded (c.diagnose path stage))
  | .absent =>
    if stage = some .read then .error .errorCode
    else .ok (.coded (Diagnostic.make (Stage.code stage) [path] (some path) none))

end Reword
