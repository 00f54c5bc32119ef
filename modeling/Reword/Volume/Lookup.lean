import Reword.Volume.Basic
import Reword.Volume.Path
import Reword.Volume.Fault
/-!
# Looking up paths

A path is read name by name from the top. Passing through a directory needs its search
permission. A link met before the last name is followed: an absolute target is read from the
top, a relative one from the link's directory, and the names after the link follow its target.
The last name is followed too when asked. At most `linkLimit` links are followed in one lookup,
those met on the way to a link's target included; one more is a loop. A path given to a call
must have fewer than `Path.pathMax` bytes, and a name looked up in a directory that may be
searched must have at most `Path.nameMax` bytes; a longer one is refused before it is looked
for. A name under a file is an error, as is a missing name before the last; a
missing last name is a location where an entry could be made. A path that ends in a slash
reads an empty name last, so its last name must be a directory, followed if it is a link.

Every call refuses a path that holds a NUL character before it looks at anything
(`SysFault.nulIn?`).

Calls that make or remove an entry read the path up to its last name only: the last name is
then an entry of a directory that may be searched, or `.`, `..` or the top, which name a
directory but no entry of it.

Reading a file opens it, which needs read permission: a special file opens as a socket does,
with no device behind it. A regular file of more bytes than one buffer holds (`bufferMax`) is
refused before it is read.

Canonical paths are found differently, name by name on the text: each prefix is looked up
without following its last name; a prefix that is a link must itself lead somewhere, and its
target, resolved on the text against the prefix's directory, replaces the prefix before the
reading starts over from the top. There is no limit on the links replaced. Reading the target
of a link stands for reading the link's name, so the search is a reading of names inside
readings of targets; a link met again while its own target is being read is met again and
again, and the search never ends (`Errno.endless`). One reading inside another is of another
link, so the readings open at once are fewer than the volume's nodes, and `nodeCount + 1`
readings deep is never reached.
-/

namespace Reword

namespace Volume

/-- How many links one lookup follows before it reports a loop. -/
def linkLimit : Nat := 40

/-- The most bytes one buffer holds, and so the most a file read whole may have. -/
def bufferMax : Nat := Nat.pow 2 31 - 1

/-- Reads the parts `todo` down from the directory `done` with `budget` links left to follow,
handing a link to be followed to `next` with the location its target is read from and the
parts to read then. Links before the last part are followed; the last one only if `follow`. -/
def locateWith (v : Volume) (follow : Bool) (budget : Nat)
    (next : List String → List String → Except Errno (List String × Nat)) :
    List String → List String → Except Errno (List String × Nat)
  | done, [] => .ok (done, budget)
  | done, part :: rest =>
    if part = "" ∨ part = "." then locateWith v follow budget next done rest
    else if part = ".." then locateWith v follow budget next done.dropLast rest
    else
      match v.node? done with
      | some here@(.dir _ entries) =>
        if !here.searchable then .error .accessDenied
        else if Path.nameTooLong part then .error .nameTooLong
        else
          match entries.lookup part with
          | none => if rest.isEmpty then .ok (done ++ [part], budget) else .error .noEntry
          | some (.link target) =>
            if rest.isEmpty ∧ !follow then .ok (done ++ [part], budget)
            else next (if Path.isAbsolute target then [] else done) (Path.parts target ++ rest)
          | some (.dir ..) => locateWith v follow budget next (done ++ [part]) rest
          | some (.file ..) | some (.special _) =>
            if rest.isEmpty then .ok (done ++ [part], budget) else .error .notDirectory
      | _ => .error .notDirectory

/-- The physical location of a path, with the number of links it may still follow: `done` is
the directory reached so far and `todo` the parts still to read. A link to follow with no link
left is a loop; otherwise its target is read with one link fewer. -/
def locate (v : Volume) (follow : Bool) : Nat → List String → List String →
    Except Errno (List String × Nat)
  | 0 => locateWith v follow 0 fun _ _ => .error .loop
  | b + 1 => locateWith v follow (b + 1) (locate v follow b)

/-- The physical location of an absolute path, following its last link if `follow`. -/
def find (v : Volume) (p : String) (follow : Bool) : Except Errno (List String) :=
  if Path.tooLong p then .error .nameTooLong
  else (v.locate follow linkLimit [] (Path.parts p)).map Prod.fst

/-- Where the last name of a path stands. -/
inductive Last where
  /-- The entry `name` of the directory at `dir`; `slash` says that a `/` follows the name. -/
  | entry (dir : List String) (name : String) (slash : Bool)
  /-- The path ends in `.`: the directory at `dir` itself. -/
  | dot (dir : List String)
  /-- The path ends in `..`, read from the directory at `dir`. -/
  | dotdot (dir : List String)
  /-- The path names the top. -/
  | top

/-- Reads a path up to its last name with `budget` links to follow, following every link
before it, and gives the links left over. The directory reached must be searchable. -/
def parentWithin (v : Volume) (budget : Nat) (p : String) : Except Errno (Last × Nat) :=
  let (names, slash) := Path.components p
  match names.getLast? with
  | none => .ok (.top, budget)
  | some last =>
    match v.locate true budget [] names.dropLast with
    | .error e => .error e
    | .ok (dir, left) =>
      match v.node? dir with
      | some n@(.dir ..) =>
        if !n.searchable then .error .accessDenied
        else if last = "." then .ok (.dot dir, left)
        else if last = ".." then .ok (.dotdot dir, left)
        else if Path.nameTooLong last then .error .nameTooLong
        else .ok (.entry dir last slash, left)
      | some _ => .error .notDirectory
      | none => .error .noEntry

/-- Reads a path up to its last name, following every link before it. The directory reached
must be searchable. -/
def parentOf (v : Volume) (p : String) : Except Errno Last :=
  if Path.tooLong p then .error .nameTooLong
  else (v.parentWithin linkLimit p).map Prod.fst

/-- Whether the directory at a physical location may be changed. -/
def dirWritable (v : Volume) (dir : List String) : Bool :=
  match v.node? dir with
  | some n => n.writable
  | none => false

/-- The node a path leads to, for the call named `call`: a missing node is no entry. -/
def lookup (v : Volume) (call p : String) (follow : Bool) : Except SysFault Node :=
  if let some f := SysFault.nulIn? call "path" p then .error f else
  match v.find p follow with
  | .error e => .error ⟨e, call, some p, none⟩
  | .ok loc =>
    match v.node? loc with
    | some n => .ok n
    | none => .error ⟨.noEntry, call, some p, none⟩

/-- The node a path leads to, its last link followed. -/
def stat (v : Volume) (p : String) : Except SysFault Node :=
  v.lookup "stat" p true

/-- The node a path names, its last link not followed. -/
def lstat (v : Volume) (p : String) : Except SysFault Node :=
  v.lookup "lstat" p false

/-- The entries of a directory with their kinds, in the directory's own order. -/
def readDir (v : Volume) (p : String) : Except SysFault (List (String × Kind)) :=
  match v.lookup "scandir" p true with
  | .error f => .error f
  | .ok n@(.dir _ entries) =>
    if n.readable then .ok (entries.map fun e => (e.1, e.2.kind))
    else .error ⟨.accessDenied, "scandir", some p, none⟩
  | .ok _ => .error ⟨.notDirectory, "scandir", some p, none⟩

/-- The bytes of a file. Opening needs read permission; a directory opens but cannot be read, and
a special file does not open. A file of more than `bufferMax` bytes is refused. -/
def readFile (v : Volume) (p : String) : Except SysFault (List UInt8) :=
  match v.lookup "open" p true with
  | .error f => .error f
  | .ok n =>
    if !n.readable then .error ⟨.accessDenied, "open", some p, none⟩
    else
      match n with
      | .file _ _ bytes =>
        if bytes.length > bufferMax then .error ⟨.fileTooLarge bytes.length, "open", some p, none⟩
        else .ok bytes
      | .special _ => .error ⟨.noDevice, "open", some p, none⟩
      | _ => .error ⟨.isDirectory, "read", none, none⟩

/-- Reads the name `name` after `done`, the canonical names read so far, with `fuel` readings
left to open: gives the canonical names with `name` read. A name that is a link must lead
somewhere, and its target, resolved on the text against `done`, is read from the top in its
place. `reading` holds the locations of the links whose targets are being read; meeting one of
them again, the search would read it for ever. -/
def readName (v : Volume) : Nat → List (List String) → List String → String →
    Except SysFault (List String)
  | 0, _, done, name => .error ⟨.endless, "realpath", some (Path.ofNames (done ++ [name])), none⟩
  | fuel + 1, reading, done, name =>
    let base := Path.ofNames (done ++ [name])
    match v.lstat base with
    | .error f => .error f
    | .ok (.link target) =>
      if done ++ [name] ∈ reading then .error ⟨.endless, "realpath", some base, none⟩
      else
        match v.stat base with
        | .error f => .error f
        | .ok _ =>
          (Path.names (Path.resolve (Path.ofNames done) target)).foldlM
            (v.readName fuel ((done ++ [name]) :: reading)) []
    | .ok _ => .ok (done ++ [name])

/-- The canonical path of an absolute path: no link, `.` or `..` in it. A search that never ends
is the fault `endless`. -/
def realpath (v : Volume) (p : String) : Except SysFault String :=
  if let some f := SysFault.nulIn? "realpath" "path" p then .error f
  else ((Path.names p).foldlM (v.readName (v.nodeCount + 1) []) []).map Path.ofNames

end Volume

end Reword
