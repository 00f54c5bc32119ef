import Reword.Volume.Update
/-!
# Removing a tree

Removing a path takes away what it names with everything below it, and asks nothing to exist:
a path that names nothing is removed already. The path is examined without following its last
link. A directory is tried as an empty directory first; if it holds entries, each entry is
removed in the directory's own order, by its name appended to the path, and the directory is
tried again. Anything else is unlinked; if that finds a directory, the directory is removed as
one.

The work stops at the first fault, and what was removed before it stays removed, so the result
is the volume as the work left it together with the fault, if any. A fault that reports a
missing entry means the entry is gone and is no fault. A directory that turns out to be no
directory reports the fault of the first attempt, if there was one.
-/

namespace Reword

namespace Volume

/-- The names in a directory, in its own order. -/
def entryNames (v : Volume) (p : String) : Except SysFault (List String) :=
  (v.readDir p).map (List.map Prod.fst)

/-- Removes the tree a path names, at most `fuel` entries deep. -/
def removeTree (v : Volume) : Nat → String → Volume × Option SysFault
  | 0, _ => (v, none)
  | fuel + 1, p =>
    let gone (w : Volume) (f : SysFault) : Volume × Option SysFault :=
      if f.errno = .noEntry then (w, none) else (w, some f)
    let emptyDir (w : Volume) (first : Option SysFault) : Volume × Option SysFault :=
      match w.rmdir p with
      | .ok w' => (w', none)
      | .error f =>
        if f.errno = .noEntry then (w, none)
        else if f.errno = .notDirectory then (w, some (first.getD f))
        else if f.errno = .notEmpty ∨ f.errno = .exists then
          match w.entryNames p with
          | .error g => (w, some g)
          | .ok names =>
            let (w', stop) := names.foldl
              (fun (acc : Volume × Option SysFault) name =>
                match acc.2 with
                | some _ => acc
                | none => acc.1.removeTree fuel (p ++ "/" ++ name))
              (w, none)
            match stop with
            | some g => (w', some g)
            | none =>
              match w'.rmdir p with
              | .ok w'' => (w'', none)
              | .error g => gone w' g
        else (w, some (first.getD f))
    match v.lstat p with
    | .error f => if f.errno = .noEntry then (v, none) else
      match v.unlink p with
      | .ok w => (w, none)
      | .error g => if g.errno = .isDirectory then emptyDir v (some g) else gone v g
    | .ok (.dir ..) =>
      match emptyDir v none with
      | (w, some g) => gone w g
      | done => done
    | .ok _ =>
      match v.unlink p with
      | .ok w => (w, none)
      | .error g => if g.errno = .isDirectory then emptyDir v (some g) else gone v g

/-- Removes the tree a path names. -/
def removeAll (v : Volume) (p : String) : Volume × Option SysFault :=
  if let some f := SysFault.nulIn? "rm" "path" p then (v, some f)
  else v.removeTree (v.nodeCount + 1) p

end Volume

end Reword
