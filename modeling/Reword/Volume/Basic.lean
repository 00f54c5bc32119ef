/-!
# Volumes

A volume is a tree of nodes under one top directory. A node is a regular file (an inode number,
permission bits and bytes), a directory (permission bits and named entries), a symbolic link
(the text of its target) or a special file (a FIFO, a socket or a device, with permission bits).
Nodes are reached here by their physical location, the list of entry names from the top, with no
link followed; following links is the work of lookups.

A new file takes the lowest inode number that no file holds, so a number freed by a replaced file
is the next one handed out.
-/

namespace Reword

/-- A node of a volume. -/
inductive Node where
  /-- A regular file. -/
  | file (inode : Nat) (mode : Nat) (bytes : List UInt8)
  /-- A directory and its entries, each name once. -/
  | dir (mode : Nat) (entries : List (String × Node))
  /-- A symbolic link. -/
  | link (target : String)
  /-- A FIFO, a socket or a device. -/
  | special (mode : Nat)
deriving Inhabited

/-- The kind of a node, as a directory listing reports it. -/
inductive Kind where
  | file
  | dir
  | link
  | other
deriving DecidableEq, Repr

namespace Node

/-- The kind of a node. -/
def kind : Node → Kind
  | .file .. => .file
  | .dir .. => .dir
  | .link _ => .link
  | .special _ => .other

/-- The permission bits of a node; a link grants everything. -/
def mode : Node → Nat
  | .file _ m _ => m
  | .dir m _ => m
  | .link _ => 0o777
  | .special m => m

/-- Whether the owner may read the node. -/
def readable (n : Node) : Bool := n.mode / 0o400 % 2 = 1

/-- Whether the owner may change the node. -/
def writable (n : Node) : Bool := n.mode / 0o200 % 2 = 1

/-- Whether the owner may pass through the node. -/
def searchable (n : Node) : Bool := n.mode / 0o100 % 2 = 1

/-- The node at a physical location below this one. -/
def get? : Node → List String → Option Node
  | n, [] => some n
  | .dir _ entries, name :: rest =>
    match entries.lookup name with
    | some child => get? child rest
    | none => none
  | _, _ :: _ => none

/-- Sets or removes the entry `name`; a new entry goes at the end. -/
def setEntry (entries : List (String × Node)) (name : String) : Option Node → List (String × Node)
  | none => entries.filter (·.1 != name)
  | some n =>
    if entries.any (·.1 == name) then entries.map fun e => if e.1 == name then (name, n) else e
    else entries ++ [(name, n)]

/-- Changes the entry at a physical location below this one, whose parent must be a directory;
elsewhere nothing changes. -/
def update (f : Option Node → Option Node) : Node → List String → Node
  | n, [] => n
  | .dir m entries, [name] => .dir m (setEntry entries name (f (entries.lookup name)))
  | .dir m entries, name :: rest =>
    match entries.lookup name with
    | some child => .dir m (setEntry entries name (some (update f child rest)))
    | none => .dir m entries
  | n, _ :: _ => n

mutual

/-- The number of nodes in a node, itself included. -/
def count : Node → Nat
  | .dir _ entries => 1 + entriesCount entries
  | _ => 1

/-- The number of nodes in directory entries. -/
def entriesCount : List (String × Node) → Nat
  | [] => 0
  | (_, n) :: rest => count n + entriesCount rest

end

mutual

/-- The inode numbers of the files in a node. -/
def inodes : Node → List Nat
  | .file inode _ _ => [inode]
  | .dir _ entries => entriesInodes entries
  | _ => []

/-- The inode numbers of the files in directory entries. -/
def entriesInodes : List (String × Node) → List Nat
  | [] => []
  | (_, n) :: rest => inodes n ++ entriesInodes rest

end

end Node

/-- A file system: the top directory. -/
structure Volume where
  top : Node

namespace Volume

/-- A volume with an empty top directory. -/
def empty : Volume :=
  ⟨.dir 0o755 []⟩

/-- The node at a physical location. -/
def node? (v : Volume) (loc : List String) : Option Node :=
  v.top.get? loc

/-- The number of nodes in the volume. -/
def nodeCount (v : Volume) : Nat :=
  v.top.count

/-- The lowest positive inode number that no file holds. Among the first `n + 1` positive
numbers one is free when `n` numbers are held. -/
def freshInode (v : Volume) : Nat :=
  let held := v.top.inodes
  (((List.range (held.length + 1)).map (· + 1)).find? (· ∉ held)).getD (held.length + 1)

/-- Changes the entry at a physical location. -/
def update (v : Volume) (loc : List String) (f : Option Node → Option Node) : Volume :=
  { v with top := v.top.update f loc }

end Volume

end Reword
