/-!
# Paths

Paths are texts with `/` between names. An absolute path starts with `/`. Resolving a path
against a base directory reads it from the base unless it is absolute, then normalises it:
empty names and `.` are dropped, `..` drops the name before it and stays at the top, and the
result is `/` or `/` followed by names, with no `/` at the end.

The relative path from one absolute path to another climbs with `..` out of every name of the
first after their common start, then descends through the rest of the second; from a path to
itself it is empty.

Joining a relative path to a directory normalises the same way but keeps a final `/`, since a
final slash asks that the path name a directory. The directory part of a path is the text
before its last name, with no normalising at all.

These are rules on text alone: no file is consulted, so `..` after a link is undone on the text.
-/

namespace Reword

namespace Path

/-- The most bytes a name in a directory may have. -/
def nameMax : Nat := 255

/-- The fewest bytes a path may not have. -/
def pathMax : Nat := 4096

/-- Whether a name has more bytes than a directory entry may have. -/
def nameTooLong (name : String) : Bool :=
  name.utf8ByteSize > nameMax

/-- Whether a path has too many bytes to be given to a call. -/
def tooLong (p : String) : Bool :=
  p.utf8ByteSize ≥ pathMax

/-- Whether a path is absolute. -/
def isAbsolute (p : String) : Bool :=
  p.startsWith "/"

/-- The texts between the slashes of a path, empty ones included. -/
def parts (p : String) : List String :=
  (p.toList.splitOn '/').map String.ofList

/-- Normal names of parts read from the top: empty parts and `.` are dropped and `..` drops the
name before it. -/
def normalize (names : List String) : List String → List String
  | [] => names
  | part :: rest =>
    if part = "" ∨ part = "." then normalize names rest
    else if part = ".." then normalize names.dropLast rest
    else normalize (names ++ [part]) rest

/-- The absolute path of a list of names. -/
def ofNames (names : List String) : String :=
  "/" ++ "/".intercalate names

/-- The names of an absolute path after normalising. -/
def names (p : String) : List String :=
  normalize [] (parts p)

/-- Resolves `p` against the absolute directory `base`. -/
def resolve (base p : String) : String :=
  if isAbsolute p then ofNames (names p)
  else ofNames (normalize (names base) (parts p))

/-- The path of an entry `name` in the directory `dir`. -/
def child (dir name : String) : String :=
  if dir = "/" then "/" ++ name
  else if dir.endsWith "/" then dir ++ name
  else dir ++ "/" ++ name

/-- Drops the common start of two lists. -/
def dropCommon : List String → List String → List String × List String
  | a :: as, b :: bs => if a = b then dropCommon as bs else (a :: as, b :: bs)
  | as, bs => (as, bs)

/-- The relative path from one absolute path to another. -/
def relative (source target : String) : String :=
  let (up, down) := dropCommon (names source) (names target)
  "/".intercalate (up.map (fun _ => "..") ++ down)

/-- Joins a relative path to an absolute directory: the text is normalised, and a final `/` of
`p` is kept after a name. -/
def join (base p : String) : String :=
  let names := names (base ++ "/" ++ p)
  ofNames names ++ (if !names.isEmpty ∧ p.endsWith "/" then "/" else "")

/-- The names of an absolute path without empty ones, and whether a `/` follows the last name.
`.` and `..` stay, for the file system to read. -/
def components (p : String) : List String × Bool :=
  let names := (parts p).filter (· ≠ "")
  (names, !names.isEmpty ∧ p.endsWith "/")

/-- The text before the last name of a path: slashes after the name are dropped, then the name
and the one slash before it. The first character is never dropped, so a name at the top gives
`/` (`//` when two slashes stand before it), and a relative name gives `.`. The text is not
normalised. -/
def dirname (p : String) : String :=
  match p.toList with
  | [] => "."
  | first :: rest =>
    match (rest.reverse.dropWhile (· = '/')).dropWhile (· ≠ '/') with
    | [] => if first = '/' then "/" else "."
    | _ :: before =>
      if first = '/' ∧ before.isEmpty then "//" else String.ofList (first :: before.reverse)

/-- The text before the last `/` of a path; the whole text when it has none. -/
def beforeLastSlash (p : String) : String :=
  match p.toList.reverse.dropWhile (· ≠ '/') with
  | [] => p
  | _ :: before => String.ofList before.reverse

/-- The directory that holds an absolute path; the top holds itself. -/
def parent (p : String) : String :=
  ofNames (names p).dropLast

/-- The last name of an absolute path; empty for the top. -/
def baseName (p : String) : String :=
  (names p).getLast?.getD ""

end Path

end Reword
