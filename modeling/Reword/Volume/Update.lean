import Reword.Volume.Lookup
/-!
# Changing a volume

Each change names its paths as lookups do, and fails as the system call it stands for fails.

Making, removing or renaming an entry needs write permission on the directory that holds it;
writing a file that exists needs write permission on the file, keeps its inode and permissions
and replaces its bytes. A new file or directory takes the requested permissions less the
process's creation mask, and a new file takes the lowest free inode number. A special file does
not open for writing.

Opening a file for writing creates it when it is missing, and follows a link at the last name,
so a dangling link makes its target. A path that ends in a slash, `.` or `..` names a directory
and cannot be opened for writing. Making a directory or a link finds any existing entry in the
way, links included; unlinking takes any entry but a directory, and removing a directory takes
an empty directory only, refusing `.` and `..` as they name no entry.

Making a directory with its parents works from the path down: when the directory above is
missing it is made first, and the directory is tried again. An entry already there is accepted
when the path leads to a directory. A fault is reported with the path the caller gave.

A rename puts the source node at the destination and removes the source name; a file may
replace a file or a link, and a directory an empty directory.
-/

namespace Reword

namespace Volume

/-- Requested permission bits less the creation mask `mask`. -/
def masked (mask mode : Nat) : Nat :=
  mode % 0o10000 - (mode % 0o10000 &&& mask)

/-- Opens a path for writing and writes `bytes`, reading `q` with `budget` links left to follow
in all; faults name the path `p` the caller gave. Each of the `rounds` follows one link at the
last name, so `budget + 1` rounds are never used up. A new file takes `mode` less `mask`. -/
def writeFileAt (v : Volume) (p : String) (bytes : List UInt8) (mask mode : Nat) :
    Nat → Nat → String → Except SysFault Volume
  | 0, _, _ => .error ⟨.loop, "open", some p, none⟩
  | rounds + 1, budget, q =>
    let fault (e : Errno) : SysFault := ⟨e, "open", some p, none⟩
    match v.parentWithin budget q with
    | .error e => .error (fault e)
    | .ok (.entry dir name slash, left) =>
      if slash then .error (fault .isDirectory)
      else
        let loc := dir ++ [name]
        match v.node? loc with
        | none =>
          if v.dirWritable dir then
            .ok (v.update loc fun _ => some (.file v.freshInode (masked mask mode) bytes))
          else .error (fault .accessDenied)
        | some n@(.file inode m _) =>
          if n.writable then .ok (v.update loc fun _ => some (.file inode m bytes))
          else .error (fault .accessDenied)
        | some (.dir ..) => .error (fault .isDirectory)
        | some (.special _) => .error (fault .noDevice)
        | some (.link target) =>
          match left with
          | 0 => .error (fault .loop)
          | b + 1 =>
            v.writeFileAt p bytes mask mode rounds b
              (if Path.isAbsolute target then target else Path.ofNames dir ++ "/" ++ target)
    | .ok _ => .error (fault .isDirectory)

/-- Writes bytes to a file as opening it for writing does: an existing file is truncated, a
missing one is made with `mode` less the creation mask `mask`, and a link at the last name is
followed, all links on the way counting towards one limit. -/
def writeFile (v : Volume) (mask : Nat) (p : String) (bytes : List UInt8) (mode : Nat := 0o666) :
    Except SysFault Volume :=
  if let some f := SysFault.nulIn? "open" "path" p then .error f
  else if Path.tooLong p then .error ⟨.nameTooLong, "open", some p, none⟩
  else v.writeFileAt p bytes mask mode (linkLimit + 1) linkLimit p

/-- Sets the permission bits of the node a path leads to. -/
def chmod (v : Volume) (p : String) (mode : Nat) : Except SysFault Volume :=
  if let some f := SysFault.nulIn? "chmod" "path" p then .error f else
  match v.find p true with
  | .error e => .error ⟨e, "chmod", some p, none⟩
  | .ok loc =>
    match v.node? loc with
    | some (.file inode _ bytes) => .ok (v.update loc fun _ => some (.file inode (mode % 0o10000) bytes))
    | some (.dir _ entries) => .ok (v.update loc fun _ => some (.dir (mode % 0o10000) entries))
    | some (.special _) => .ok (v.update loc fun _ => some (.special (mode % 0o10000)))
    | _ => .error ⟨.noEntry, "chmod", some p, none⟩

/-- Moves the node named by `src` to the name `dst`, neither last link followed. -/
def rename (v : Volume) (src dst : String) : Except SysFault Volume :=
  let fault (e : Errno) : SysFault := ⟨e, "rename", some src, some dst⟩
  if let some f := SysFault.nulIn? "rename" "oldPath" src then .error f
  else if let some f := SysFault.nulIn? "rename" "newPath" dst then .error f else
  match v.find src false, v.find dst false with
  | .error e, _ => .error (fault e)
  | _, .error e => .error (fault e)
  | .ok srcLoc, .ok dstLoc =>
    match v.node? srcLoc, v.node? dstLoc with
    | none, _ => .error (fault .noEntry)
    | some moving, target =>
      if !(v.dirWritable srcLoc.dropLast && v.dirWritable dstLoc.dropLast) then
        .error (fault .accessDenied)
      else if srcLoc = dstLoc then .ok v
      else
        let placed := fun (w : Volume) =>
          (w.update srcLoc fun _ => none).update dstLoc fun _ => some moving
        match moving, target with
        | .dir .., some (.dir _ []) => .ok (placed v)
        | .dir .., some (.dir ..) => .error (fault .notEmpty)
        | .dir .., some _ => .error (fault .notDirectory)
        | _, some (.dir ..) => .error (fault .isDirectory)
        | _, _ => .ok (placed v)

/-- Makes one directory, whose parent must exist, with `mode` less `mask`. -/
def mkdirOne (v : Volume) (mask : Nat) (p : String) (mode : Nat := 0o777) : Except Errno Volume :=
  match v.parentOf p with
  | .error e => .error e
  | .ok (.entry dir name _) =>
    let loc := dir ++ [name]
    match v.node? loc with
    | some _ => .error .exists
    | none =>
      if v.dirWritable dir then .ok (v.update loc fun _ => some (.dir (masked mask mode) []))
      else .error .accessDenied
  | .ok _ => .error .exists

/-- Accepts an entry that stands where a directory was to be made, if the path leads to a
directory; `inner` says the path is a parent being made for a longer one. -/
def acceptExisting (v : Volume) (inner : Bool) (e : Errno) (q : String) : Except Errno Volume :=
  match v.stat q with
  | .ok (.dir ..) => .ok v
  | .ok _ => .error (if e = .exists ∧ inner then .notDirectory else .exists)
  | .error f => .error f.errno

/-- Makes the directory `q` and the missing directories above it, trying at most `fuel` times. -/
def mkdirUp (v : Volume) (mask : Nat) (inner : Bool) : Nat → String → Except Errno Volume
  | 0, _ => .error .noEntry
  | fuel + 1, q =>
    match v.mkdirOne mask q with
    | .ok w => .ok w
    | .error .accessDenied => .error .accessDenied
    | .error .notDirectory => .error .notDirectory
    | .error .noEntry =>
      let above := Path.beforeLastSlash q
      if above = q then (if inner then .ok v else v.acceptExisting inner .exists q)
      else
        match v.mkdirUp mask true fuel above with
        | .error e => .error e
        | .ok w => w.mkdirUp mask inner fuel q
    | .error e => v.acceptExisting inner e q

/-- Makes a directory and every missing directory above it, each with `mode` less `mask`. -/
def mkdirRecursive (v : Volume) (mask : Nat) (p : String) : Except SysFault Volume :=
  if let some f := SysFault.nulIn? "mkdir" "path" p then .error f else
  match v.mkdirUp mask false (2 * p.length + 2) p with
  | .ok w => .ok w
  | .error e => .error ⟨e, "mkdir", some p, none⟩

/-- Makes a symbolic link named `p` with the text `target`. The target is taken before the
name is looked up: an empty one names nothing, and one of `Path.pathMax` bytes is too long. -/
def symlink (v : Volume) (target p : String) : Except SysFault Volume :=
  let fault (e : Errno) : SysFault := ⟨e, "symlink", some target, some p⟩
  if let some f := SysFault.nulIn? "symlink" "target" target then .error f
  else if let some f := SysFault.nulIn? "symlink" "path" p then .error f
  else if target.isEmpty then .error (fault .noEntry)
  else if Path.tooLong target then .error (fault .nameTooLong) else
  match v.parentOf p with
  | .error e => .error (fault e)
  | .ok (.entry dir name slash) =>
    let loc := dir ++ [name]
    match v.node? loc with
    | some _ => .error (fault .exists)
    | none =>
      if slash then .error (fault .noEntry)
      else if v.dirWritable dir then .ok (v.update loc fun _ => some (.link target))
      else .error (fault .accessDenied)
  | .ok _ => .error (fault .exists)

/-- Removes the entry a path names, which must not be a directory. -/
def unlink (v : Volume) (p : String) : Except SysFault Volume :=
  let fault (e : Errno) : SysFault := ⟨e, "unlink", some p, none⟩
  if let some f := SysFault.nulIn? "unlink" "path" p then .error f else
  match v.parentOf p with
  | .error e => .error (fault e)
  | .ok (.entry dir name slash) =>
    let loc := dir ++ [name]
    match v.node? loc with
    | none => .error (fault .noEntry)
    | some n =>
      if slash then .error (fault (if n.kind = .dir then .isDirectory else .notDirectory))
      else if !v.dirWritable dir then .error (fault .accessDenied)
      else if n.kind = .dir then .error (fault .isDirectory)
      else .ok (v.update loc fun _ => none)
  | .ok _ => .error (fault .isDirectory)

/-- Removes the empty directory a path names. -/
def rmdir (v : Volume) (p : String) : Except SysFault Volume :=
  let fault (e : Errno) : SysFault := ⟨e, "rmdir", some p, none⟩
  if let some f := SysFault.nulIn? "rmdir" "path" p then .error f else
  match v.parentOf p with
  | .error e => .error (fault e)
  | .ok (.entry dir name _) =>
    let loc := dir ++ [name]
    match v.node? loc with
    | none => .error (fault .noEntry)
    | some n =>
      if !v.dirWritable dir then .error (fault .accessDenied)
      else
        match n with
        | .dir _ [] => .ok (v.update loc fun _ => none)
        | .dir .. => .error (fault .notEmpty)
        | _ => .error (fault .notDirectory)
  | .ok (.dot _) => .error (fault .invalid)
  | .ok (.dotdot _) => .error (fault .notEmpty)
  | .ok .top => .error (fault .busy)

end Volume

end Reword
