import Reword.Volume.Lookup
import Reword.Text.Units
/-!
# Listing a volume

A listing of a directory names every node below it, each directory followed at once by what it
holds, names in code-unit order, with paths relative to the listed directory. A file is listed
with its permission bits and bytes, read as the owner reads it; a link with its target, not
followed; a special file is left out. Nothing in a directory without search permission can be opened or read. The first
node in listing order that cannot be read stops the listing.

The files view maps the relative path of every regular file below a directory to its inode
number; comparing two views tells which files were replaced. Taken as a walk takes it, the view
reads every directory, which needs read permission, and examines every entry, which needs
search permission on the directory that holds it, in each directory's own order; the first of
these that fails stops it.
-/

namespace Reword

/-- One node of a listing. -/
inductive Listed where
  | file (path : String) (mode : Nat) (bytes : List UInt8)
  | dir (path : String)
  | link (path : String) (target : String)
deriving Repr

namespace Node

/-- The path of an entry below a relative directory path; the listed directory itself is empty. -/
def entryPath (dir name : String) : String :=
  if dir.isEmpty then name else dir ++ "/" ++ name

mutual

/-- The listing of a node at the relative path `rel`, whose absolute path is `abs`; `reached`
says whether the directory holding it may be searched. -/
def listing (rel abs : String) (reached : Bool) : Node → Except SysFault (List Listed)
  | n@(.file _ m bytes) =>
    if reached && n.readable then .ok [.file rel m bytes]
    else .error ⟨.accessDenied, "open", some abs, none⟩
  | n@(.dir _ entries) =>
    if !(reached && n.readable) then .error ⟨.accessDenied, "scandir", some abs, none⟩
    else
      let parts := listEntries rel abs n.searchable entries
      let sorted := parts.mergeSort fun a b => !Text.unitLt b.1 a.1
      (sorted.mapM Prod.snd).map fun groups => .dir rel :: groups.flatten
  | .link target =>
    if reached then .ok [.link rel target] else .error ⟨.accessDenied, "readlink", some abs, none⟩
  | .special _ => .ok []

/-- The listings of directory entries, each with its name, none stopping another. -/
def listEntries (rel abs : String) (reached : Bool) :
    List (String × Node) → List (String × Except SysFault (List Listed))
  | [] => []
  | (name, n) :: rest =>
    (name, listing (entryPath rel name) (Path.child abs name) reached n) ::
      listEntries rel abs reached rest

end

mutual

/-- Every regular file below a node with its inode number, by relative path. -/
def files (rel : String) : Node → List (String × Nat)
  | .file inode _ _ => [(rel, inode)]
  | .dir _ entries => entryFiles rel entries
  | _ => []

/-- Every regular file below directory entries. -/
def entryFiles (rel : String) : List (String × Node) → List (String × Nat)
  | [] => []
  | (name, n) :: rest => files (entryPath rel name) n ++ entryFiles rel rest

end

mutual

/-- Every regular file below a node with its inode number, read as a walk reads it; `abs` is
the absolute path of the node. -/
def walkedFiles (rel abs : String) : Node → Except SysFault (List (String × Nat))
  | n@(.dir _ entries) =>
    if n.readable then walkedEntries rel abs n.searchable entries
    else .error ⟨.accessDenied, "scandir", some abs, none⟩
  | _ => .ok []

/-- Every regular file below directory entries, read as a walk reads them; `reached` says
whether the directory may be searched. -/
def walkedEntries (rel abs : String) (reached : Bool) :
    List (String × Node) → Except SysFault (List (String × Nat))
  | [] => .ok []
  | (name, n) :: rest =>
    if !reached then .error ⟨.accessDenied, "lstat", some (Path.child abs name), none⟩
    else
      let here : Except SysFault (List (String × Nat)) :=
        match n with
        | .file inode _ _ => .ok [(entryPath rel name, inode)]
        | .dir .. => walkedFiles (entryPath rel name) (Path.child abs name) n
        | _ => .ok []
      match here, walkedEntries rel abs reached rest with
      | .error f, _ => .error f
      | .ok _, .error f => .error f
      | .ok a, .ok b => .ok (a ++ b)

end

end Node

namespace Volume

/-- The listing of what lies below a directory, the directory itself left out. -/
def listing (v : Volume) (dir : String) : Except SysFault (List Listed) :=
  match v.find dir true with
  | .error e => .error ⟨e, "scandir", some dir, none⟩
  | .ok loc =>
    match v.node? loc with
    | some n => (n.listing "" dir true).map List.tail
    | none => .error ⟨.noEntry, "scandir", some dir, none⟩

/-- Every regular file below a directory with its inode number, by relative path. -/
def files (v : Volume) (dir : String) : List (String × Nat) :=
  match v.find dir true with
  | .ok loc => ((v.node? loc).map (Node.files "")).getD []
  | .error _ => []

/-- Every regular file below a directory with its inode number, read as a walk reads it. -/
def walkedFiles (v : Volume) (dir : String) : Except SysFault (List (String × Nat)) :=
  match v.find dir true with
  | .error e => .error ⟨e, "scandir", some dir, none⟩
  | .ok loc =>
    match v.node? loc with
    | some n@(.dir ..) => n.walkedFiles "" dir
    | some _ => .error ⟨.notDirectory, "scandir", some dir, none⟩
    | none => .error ⟨.noEntry, "scandir", some dir, none⟩

/-- The paths present in two files views with different inodes, in code-unit order. -/
def replacedBetween (old new : List (String × Nat)) : List String :=
  Text.sortByUnits (new.filterMap fun f =>
    match old.lookup f.1 with
    | some inode => if inode = f.2 then none else some f.1
    | none => none)

/-- The files below a directory that are present before and after with another inode, in
code-unit order of their paths. -/
def replacedFiles (before after : Volume) (dir : String) : List String :=
  replacedBetween (before.files dir) (after.files dir)

end Volume

end Reword
