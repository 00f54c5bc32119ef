import Reword.Text.Quoted
/-!
# System faults

A call on the file system fails with an error number, the name of the call and the path it was
given (two for a rename; none for a read of an open directory). The text of a fault is the error
code, its description, the call and the quoted paths, in the form the system reports.

A path that holds a NUL character is refused before the call runs: the fault names the argument
and shows the value quoted (`Text.quoted`), cut to `shownUnits` units. Two faults come from the
library around the calls, with texts of their own: a file too large to be read into one buffer,
and a directory given to a removal that is not recursive.

One fault is no error the system reports: `endless` stands for a call that never returns. Whoever
meets it does not return either, so its text is never seen.
-/

namespace Reword

/-- Why a call on the file system fails. -/
inductive Errno where
  | noEntry
  | notDirectory
  | loop
  | isDirectory
  | accessDenied
  | exists
  | notEmpty
  | invalid
  | busy
  | nameTooLong
  | noDevice
  /-- The path given as `argument` holds a NUL character. -/
  | nulInPath (argument : String)
  /-- A file of `size` bytes is more than one buffer may hold. -/
  | fileTooLarge (size : Nat)
  /-- A removal that is not recursive is given a directory. -/
  | pathIsDirectory
  /-- The call never returns. -/
  | endless
deriving DecidableEq, Repr

namespace Errno

/-- The symbolic code. -/
def code : Errno → String
  | .noEntry => "ENOENT"
  | .notDirectory => "ENOTDIR"
  | .loop => "ELOOP"
  | .isDirectory => "EISDIR"
  | .accessDenied => "EACCES"
  | .exists => "EEXIST"
  | .notEmpty => "ENOTEMPTY"
  | .invalid => "EINVAL"
  | .busy => "EBUSY"
  | .nameTooLong => "ENAMETOOLONG"
  | .noDevice => "ENXIO"
  | .nulInPath _ => "ERR_INVALID_ARG_VALUE"
  | .fileTooLarge _ => "ERR_FS_FILE_TOO_LARGE"
  | .pathIsDirectory => "ERR_FS_EISDIR"
  | .endless => ""

/-- The description. -/
def description : Errno → String
  | .noEntry => "no such file or directory"
  | .notDirectory => "not a directory"
  | .loop => "too many symbolic links encountered"
  | .isDirectory => "illegal operation on a directory"
  | .accessDenied => "permission denied"
  | .exists => "file already exists"
  | .notEmpty => "directory not empty"
  | .invalid => "invalid argument"
  | .busy => "resource busy or locked"
  | .nameTooLong => "name too long"
  | .noDevice => "no such device or address"
  | .nulInPath _ => "must be a string, Uint8Array, or URL without null bytes"
  | .fileTooLarge _ => "is greater than 2 GiB"
  | .pathIsDirectory => "is a directory"
  | .endless => ""

end Errno

/-- A failed call on the file system. -/
structure SysFault where
  errno : Errno
  call : String
  path : Option String := none
  dest : Option String := none
deriving DecidableEq, Repr

namespace SysFault

/-- How many units of a refused value are shown. -/
def shownUnits : Nat := 128

/-- A refused value as shown: quoted, and cut after `shownUnits` units. -/
def shownValue (p : String) : String :=
  let q := Text.quoted p
  if Text.unitLength q > shownUnits then Text.ofUnits ((Text.units q).take shownUnits) ++ "..."
  else q

/-- The text of the fault: `CODE: description, call 'path' -> 'dest'`; for a refused path
the argument and its value, for a file too large its size, and for a directory given to a
removal the call and the path. -/
def message (f : SysFault) : String :=
  match f.errno with
  | .nulInPath argument =>
    "The argument '" ++ argument ++ "' " ++ f.errno.description ++ ". Received " ++
      shownValue (f.path.getD "")
  | .fileTooLarge size => "File size (" ++ toString size ++ ") " ++ f.errno.description
  | .pathIsDirectory =>
    "Path is a directory: " ++ f.call ++ " returned EISDIR (is a directory) " ++ f.path.getD ""
  | _ =>
    f.errno.code ++ ": " ++ f.errno.description ++ ", " ++ f.call ++
      (f.path.map fun p => " '" ++ p ++ "'").getD "" ++
      (f.dest.map fun d => " -> '" ++ d ++ "'").getD ""

/-- The fault of a path argument that holds a NUL character, if it holds one. -/
def nulIn? (call argument p : String) : Option SysFault :=
  if p.toList.contains (Char.ofNat 0) then some ⟨.nulInPath argument, call, some p, none⟩ else none

end SysFault

end Reword
