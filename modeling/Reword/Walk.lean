import Reword.Host
import Reword.Volume.Lookup
import Reword.Text.Units
/-!
# Walking a source tree

A walk lists the files below a root whose names end with an extension, one file per pull, and
reads the volume only when pulled. Entering a directory finds its canonical path first: a
directory already entered under that path is skipped, so every directory is entered once and a
cycle of links ends. Its entries are then read and taken in code-unit order of their names,
each subdirectory walked where it stands.

An entry's kind is the one its directory reported, except that a link is looked up when it is
taken: a link to a directory is walked, a link to a file is a file, and a link that leads
nowhere is skipped, as is a special file. A directory that cannot be entered or listed, or a
link that cannot be looked up, gives a traversal diagnostic and the walk goes on.

A directory whose canonical path is searched for ever stops the walk for good: the pull that
started the search never returns, and the walk keeps the directory (`endless`).

A pull's work is bounded: each step takes an entry or leaves a directory, and a pull enters
each directory at most once, so the entries waiting plus the square of the volume's size are
enough steps.
-/

namespace Reword

/-- A directory being walked and its entries not yet taken, in order. -/
structure Frame where
  dir : String
  pending : List (String × Kind)
deriving Repr

/-- The state of a walk between pulls. -/
structure Walk where
  root : String
  extension : String
  started : Bool := false
  visited : List String := []
  stack : List Frame := []
  /-- The directory whose canonical path the walk searches for ever, once it has met one. -/
  endless : Option String := none
deriving Repr

/-- What an entry is to a walk. -/
inductive Role where
  | directory
  | file
  | other
deriving DecidableEq, Repr

/-- What one pull gives: the next file, or none at the end, the diagnostics met on the way, and
the walk after it. -/
structure Pull where
  next : Option String
  errors : List Diagnostic
  walk : Walk

namespace Walk

/-- A walk from a root, resolved against the working directory, that has read nothing. -/
def start (host : Host) (root extension : String) : Walk :=
  { root := Path.resolve host.cwd root, extension }

/-- The traversal diagnostic of a failed call at a path. -/
def fault (f : SysFault) (path : String) : Diagnostic :=
  f.cause.diagnose path (some .traverse)

/-- What an entry is: its reported kind, a link looked up; a special file, and a link that leads
to no entry, to a special file or through a file, is other. -/
def role (v : Volume) (path : String) : Kind → Except SysFault Role
  | .dir => .ok .directory
  | .file => .ok .file
  | .link =>
    match v.stat path with
    | .ok (.dir ..) => .ok .directory
    | .ok (.file ..) => .ok .file
    | .ok _ => .ok .other
    | .error f =>
      if f.errno = .noEntry ∨ f.errno = .notDirectory then .ok .other else .error f
  | .other => .ok .other

/-- Enters a directory: skipped if its canonical path was entered, else listed and put on top. A
search for the canonical path that never ends leaves nothing more to walk. -/
def enter (w : Walk) (v : Volume) (dir : String) : Walk × List Diagnostic :=
  match v.realpath dir with
  | .error f =>
    if f.errno = .endless then ({ w with stack := [], endless := some dir }, [])
    else (w, [fault f dir])
  | .ok real =>
    if real ∈ w.visited then (w, [])
    else
      let w := { w with visited := real :: w.visited }
      match v.readDir dir with
      | .error f => (w, [fault f dir])
      | .ok entries =>
        let sorted := entries.mergeSort fun a b => !Text.unitLt b.1 a.1
        ({ w with stack := ⟨dir, sorted⟩ :: w.stack }, [])

/-- Steps until a file is found or the walk ends, with at most `fuel` steps. -/
def advance (v : Volume) : Nat → Walk → List Diagnostic → Pull
  | 0, w, errors => ⟨none, errors, { w with stack := [] }⟩
  | fuel + 1, w, errors =>
    if !w.started then
      let (w, found) := enter { w with started := true } v w.root
      advance v fuel w (errors ++ found)
    else
      match w.stack with
      | [] => ⟨none, errors, w⟩
      | ⟨_, []⟩ :: outer => advance v fuel { w with stack := outer } errors
      | ⟨dir, (name, kind) :: rest⟩ :: outer =>
        let w := { w with stack := ⟨dir, rest⟩ :: outer }
        let path := Path.child dir name
        match role v path kind with
        | .error f => advance v fuel w (errors ++ [fault f path])
        | .ok .directory =>
          let (w, found) := enter w v path
          advance v fuel w (errors ++ found)
        | .ok .file =>
          if Text.endsWithUnits name w.extension then ⟨some path, errors, w⟩
          else advance v fuel w errors
        | .ok .other => advance v fuel w errors

/-- Steps enough for one pull: the entries waiting, and for each directory the pull may enter,
as many entries as the volume has nodes. -/
def budget (w : Walk) (v : Volume) : Nat :=
  let waiting := (w.stack.map fun f => f.pending.length + 1).foldr (· + ·) 0
  waiting + (v.nodeCount + 1) * (v.nodeCount + 2) + 2

/-- The next file of the walk, reading the volume as it is now. -/
def pull (w : Walk) (v : Volume) : Pull :=
  advance v (w.budget v) w []

/-- Pulls until the end, at most `fuel` times: the files in order and the diagnostics met, or
none when a pull never returns. -/
def drain (v : Volume) : Nat → Walk → List String → List Diagnostic →
    Option (List String × List Diagnostic)
  | 0, _, files, errors => some (files, errors)
  | fuel + 1, w, files, errors =>
    let p := w.pull v
    match p.walk.endless, p.next with
    | some _, _ => none
    | none, none => some (files, errors ++ p.errors)
    | none, some path => drain v fuel p.walk (files ++ [path]) (errors ++ p.errors)

/-- The most pulls a walk from its root takes on a volume that does not change, the last one
giving no file. -/
def pullLimit (v : Volume) : Nat :=
  (v.nodeCount + 1) * (v.nodeCount + 2)

/-- Every file of a walk on a volume that does not change, and the diagnostics met, or none when
a pull never returns. -/
def all (w : Walk) (v : Volume) : Option (List String × List Diagnostic) :=
  drain v (pullLimit v) w [] []

end Walk

end Reword
