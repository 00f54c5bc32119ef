import Mathlib
import Reword.Proofs.UnitOrder
import Reword.Proofs.Batch
import Reword.Proofs.WalkOnce
/-!
# Source trees

A walk reads a directory through its path twice: it finds the directory's canonical path, to
mark it entered, and it lists it. A directory of the tree below the root is met by the path of
its location, so both calls succeed when every location on the way is resolved
(`Volume.Resolved`: reached from the top through no link, holding no link, its path passing
the checks of a call). Then the canonical path of a directory is its own path
(`realpath_of_resolved`) and its listing is its entries with their kinds
(`readDir_of_resolved`).

A root that is its own canonical path is resolved, every location on the way to a resolved one
is resolved (`Resolved.prefix`), and in a source tree (`Volume.SourceTree`: no link, every
directory one a walk may list and pass through, whose path a call takes, with entries named
once each by plain names of at most `Path.nameMax` bytes that carry no lone surrogate) every
directory below a resolved one is resolved (`Resolved.child`).
-/

namespace Reword

namespace Path

/-- The path of a directory starts the path of each entry in it. -/
theorem ofNames_prefix_snoc {ds : List String} (hds : ds ≠ []) (d : String) :
    (ofNames ds).toList <+: (ofNames (ds ++ [d])).toList := by
  rw [ofNames_concat, if_neg hds, String.toList_append, String.toList_append]
  exact ⟨"/".toList ++ d.toList, by simp⟩

/-- A path that starts a path a call takes is not too long either. -/
theorem tooLong_of_prefix {p q : String} (h : p.toList <+: q.toList) (hq : tooLong q = false) :
    tooLong p = false := by
  obtain ⟨t, ht⟩ := h
  have hsplit : q = p ++ String.ofList t := by
    apply String.toList_inj.mp
    rw [String.toList_append, String.toList_ofList, ht]
  have hsize := congrArg String.utf8ByteSize hsplit
  rw [String.utf8ByteSize_append] at hsize
  simp only [tooLong, decide_eq_false_iff_not, not_le] at hq ⊢
  omega

end Path

namespace SysFault

/-- A path that starts a path free of NUL is free of NUL. -/
theorem nulIn?_of_prefix {call argument call' argument' p q : String} (h : p.toList <+: q.toList)
    (hq : nulIn? call argument q = none) : nulIn? call' argument' p = none := by
  obtain ⟨t, ht⟩ := h
  unfold nulIn? at hq ⊢
  split at hq
  · cases hq
  · next hfree =>
    rw [← ht, List.contains_append, Bool.or_eq_true, not_or] at hfree
    rw [if_neg hfree.1]

/-- A path is refused for a NUL in it exactly when it holds one, whatever the call. -/
theorem nulIn?_eq_none_iff {call argument p : String} :
    nulIn? call argument p = none ↔ p.toList.contains (Char.ofNat 0) = false := by
  unfold nulIn?
  split <;> simp_all

end SysFault

namespace Volume

/-! ## Resolved locations -/

/-- A passage through names ends in a passage through all but the last, a plain last name and
a short one. -/
theorem Passable.snoc_inv {v : Volume} {name : String} {done ds : List String}
    (h : v.Passable done (ds ++ [name])) :
    v.Passable done ds ∧ Path.Plain name ∧ Path.nameTooLong name = false := by
  induction ds generalizing done with
  | nil => exact ⟨h.1, h.2.1, h.2.2.1⟩
  | cons x ds ih =>
    obtain ⟨hhere, hx, hxshort, hrest⟩ := h
    obtain ⟨hpass, hplain, hshort⟩ := ih hrest
    exact ⟨⟨hhere, hx, hxshort, hpass⟩, hplain, hshort⟩

/-- What a resolved location other than the top has checked of itself. -/
theorem Resolved.lstat {v : Volume} {ds : List String} {name : String}
    (h : v.Resolved (ds ++ [name])) :
    ∃ n, v.lstat (Path.ofNames (ds ++ [name])) = .ok n ∧ v.node? (ds ++ [name]) = some n ∧
      n.kind ≠ .link := by
  rcases h with hnil | ⟨_, _, n, -, -, hlstat, hat, hkind⟩
  · simp at hnil
  · exact ⟨n, hlstat, hat, hkind⟩

/-- The directory holding a resolved location is resolved. -/
theorem Resolved.dropLast {v : Volume} {ds : List String} {name : String}
    (h : v.Resolved (ds ++ [name])) : v.Resolved ds := by
  obtain ⟨hreach, hnul, hlong, -⟩ := h.of_snoc
  rcases List.eq_nil_or_concat ds with rfl | ⟨front, last, rfl⟩
  · exact Or.inl rfl
  · rw [List.concat_eq_append] at hreach hnul hlong ⊢
    obtain ⟨hpass, hplain, hshort⟩ := hreach.passable.snoc_inv
    obtain ⟨m, es, hat, -⟩ : v.Searchable (front ++ [last]) := by
      simpa using hreach.passable.searchable_last
    -- the directory's path starts the entry's, so it passes the same checks
    have hpre := Path.ofNames_prefix_snoc (by simp : front ++ [last] ≠ []) name
    have hlstat := lstat_reaches ⟨hpass, hplain, hshort⟩ (SysFault.nulIn?_of_prefix hpre hnul)
      (Path.tooLong_of_prefix hpre hlong) hat
    exact Or.inr ⟨front, last, _, rfl, ⟨hpass, hplain, hshort⟩, hlstat, hat, by simp [Node.kind]⟩

/-- Every location on the way to a resolved location is resolved. -/
theorem Resolved.prefix {v : Volume} {loc : List String} (h : v.Resolved loc) :
    ∀ {p : List String}, p <+: loc → v.Resolved p := by
  induction loc using List.reverseRecOn with
  | nil =>
    intro p hp
    rw [List.prefix_nil.mp hp]
    exact h
  | append_singleton ds name ih =>
    intro p hp
    rcases List.prefix_concat_iff.mp hp with rfl | hp
    · exact h
    · exact ih h.dropLast hp

/-- A directory entry, holding no link, of a resolved directory that may be searched is
resolved, when its name is plain and short and its path passes the checks of a call. -/
theorem Resolved.child {v : Volume} {loc : List String} {m : Nat} {es : List (String × Node)}
    {name : String} {n : Node} (h : v.Resolved loc) (hat : v.node? loc = some (.dir m es))
    (hsearch : (Node.dir m es).searchable = true) (hplain : Path.Plain name)
    (hshort : Path.nameTooLong name = false)
    (hnul : SysFault.nulIn? "lstat" "path" (Path.ofNames (loc ++ [name])) = none)
    (hlong : Path.tooLong (Path.ofNames (loc ++ [name])) = false)
    (hchild : v.node? (loc ++ [name]) = some n) (hkind : n.kind ≠ .link) :
    v.Resolved (loc ++ [name]) :=
  h.snoc hplain (lstat_reaches ⟨h.passable ⟨m, es, hat, hsearch⟩, hplain, hshort⟩ hnul hlong hchild)
    hkind

/-- The path of a resolved location holds no NUL, whatever call takes it. -/
theorem Resolved.nul_free {v : Volume} {loc : List String} (h : v.Resolved loc)
    (call argument : String) : SysFault.nulIn? call argument (Path.ofNames loc) = none := by
  rcases List.eq_nil_or_concat loc with rfl | ⟨ds, name, rfl⟩
  · exact SysFault.nulIn?_eq_none_iff.mpr (by decide)
  · rw [List.concat_eq_append] at h ⊢
    exact nulIn?_eq_none h.of_snoc.2.1

/-- Searching for the canonical path of resolved names reads each name as it is. -/
theorem foldlM_readName_of_resolved {v : Volume} (fuel : Nat) (reading : List (List String))
    (todo : List String) :
    ∀ {done : List String}, v.Resolved (done ++ todo) →
      todo.foldlM (v.readName (fuel + 1) reading) done = .ok (done ++ todo) := by
  induction todo with
  | nil =>
    intro done _
    simp only [List.foldlM_nil, List.append_nil]
    rfl
  | cons name rest ih =>
    intro done h
    have hname : v.Resolved (done ++ [name]) := h.prefix ⟨rest, by simp⟩
    obtain ⟨n, hlstat, -, hkind⟩ := hname.lstat
    have hrest := @ih (done ++ [name]) (by simpa using h)
    rw [List.append_assoc, List.singleton_append] at hrest
    -- a name that is no link is read as itself
    have hread : v.readName (fuel + 1) reading done name = .ok (done ++ [name]) := by
      cases n with
      | link target => exact absurd rfl hkind
      | file inode m bytes => simp only [readName, hlstat]
      | dir m entries => simp only [readName, hlstat]
      | special m => simp only [readName, hlstat]
    simp only [List.foldlM_cons, hread, bind, Except.bind]
    exact hrest

/-- A resolved location is its own canonical path. -/
theorem realpath_of_resolved {v : Volume} {loc : List String} (h : v.Resolved loc) :
    v.realpath (Path.ofNames loc) = .ok (Path.ofNames loc) := by
  have hsearch : loc.foldlM (v.readName (v.nodeCount + 1) []) [] = .ok ([] ++ loc) :=
    foldlM_readName_of_resolved v.nodeCount [] loc (by simpa using h)
  simp only [realpath, h.nul_free, Path.names_ofNames h.plain, hsearch]
  rfl

/-- A resolved location is what a lookup of its path finds. -/
theorem Resolved.find_self {v : Volume} {loc : List String} (h : v.Resolved loc) (follow : Bool) :
    v.find (Path.ofNames loc) follow = .ok loc := by
  rcases List.eq_nil_or_concat loc with rfl | ⟨ds, name, rfl⟩
  · exact TextFile.find_top v follow
  · rw [List.concat_eq_append] at h ⊢
    exact h.find follow

/-- The listing of a resolved directory that may be read is its entries with their kinds. -/
theorem readDir_of_resolved {v : Volume} {loc : List String} {m : Nat}
    {es : List (String × Node)} (h : v.Resolved loc) (hat : v.node? loc = some (.dir m es))
    (hread : (Node.dir m es).readable = true) :
    v.readDir (Path.ofNames loc) = .ok (es.map fun e => (e.1, e.2.kind)) := by
  simp only [readDir, lookup, h.nul_free, h.find_self true, hat, hread, if_true]

/-! ## Source trees -/

/-- Whether the node at a location is fit for a walk: not a link, and if a directory, one that
may be listed and passed through, whose path a call takes (shorter than `Path.pathMax` bytes,
free of NUL), with entries named once each, every name plain, at most `Path.nameMax` bytes
long and carrying no lone surrogate. -/
def clearAt (v : Volume) (loc : List String) : Bool :=
  match v.node? loc with
  | some (.link _) => false
  | some (.dir m entries) =>
    (Node.dir m entries).readable && (Node.dir m entries).searchable &&
      !Path.tooLong (Path.ofNames loc) && !(Path.ofNames loc).toList.contains (Char.ofNat 0) &&
      decide (entries.map Prod.fst).Nodup &&
      entries.all fun e => decide (Path.Plain e.1) && !Path.nameTooLong e.1 && Text.paired e.1
  | _ => true

/-- A source tree at a location: a directory stands there, and every location at or below it
is fit for a walk. -/
def SourceTree (v : Volume) (root : List String) : Prop :=
  (v.node? root).map Node.kind = some .dir ∧ ∀ loc ∈ v.locations, root <+: loc → v.clearAt loc = true

instance (v : Volume) (root : List String) : Decidable (v.SourceTree root) :=
  inferInstanceAs (Decidable (_ ∧ _))

/-- What a source tree gives of a directory in it. -/
structure Open (v : Volume) (loc : List String) (m : Nat) (es : List (String × Node)) : Prop where
  readable : (Node.dir m es).readable = true
  searchable : (Node.dir m es).searchable = true
  short : Path.tooLong (Path.ofNames loc) = false
  nul_free : ∀ call argument, SysFault.nulIn? call argument (Path.ofNames loc) = none
  nodup : (es.map Prod.fst).Nodup
  names : ∀ e ∈ es, Path.Plain e.1 ∧ Path.nameTooLong e.1 = false ∧ Text.paired e.1 = true

section SourceTree

variable {v : Volume} {root : List String}

theorem SourceTree.clearAt (h : v.SourceTree root) {loc : List String} (hp : root <+: loc)
    {n : Node} (hat : v.node? loc = some n) : v.clearAt loc = true :=
  h.2 loc (mem_locations (by simp [hat])) hp

theorem SourceTree.not_link (h : v.SourceTree root) {loc : List String} (hp : root <+: loc)
    {target : String} : v.node? loc ≠ some (.link target) := by
  intro hat
  have hclear := h.clearAt hp hat
  simp [Volume.clearAt, hat] at hclear

theorem SourceTree.opens (h : v.SourceTree root) {loc : List String} (hp : root <+: loc) {m : Nat}
    {es : List (String × Node)} (hat : v.node? loc = some (.dir m es)) : v.Open loc m es := by
  have hclear := h.clearAt hp hat
  simp only [Volume.clearAt, hat, Bool.and_eq_true, Bool.not_eq_true', decide_eq_true_eq,
    List.all_eq_true] at hclear
  obtain ⟨⟨⟨⟨⟨hread, hsearch⟩, hshort⟩, hnul⟩, hnodup⟩, hnames⟩ := hclear
  refine ⟨hread, hsearch, hshort, fun _ _ => SysFault.nulIn?_eq_none_iff.mpr hnul, hnodup,
    fun e he => ?_⟩
  have he' := hnames e he
  exact ⟨he'.1.1, he'.1.2, he'.2⟩

theorem SourceTree.root_dir (h : v.SourceTree root) :
    ∃ m es, v.node? root = some (.dir m es) := by
  obtain ⟨hkind, -⟩ := h
  cases hat : v.node? root with
  | none => simp [hat] at hkind
  | some n =>
    cases n with
    | dir m es => exact ⟨m, es, rfl⟩
    | file => simp [hat, Node.kind] at hkind
    | link => simp [hat, Node.kind] at hkind
    | special => simp [hat, Node.kind] at hkind

/-- A directory of a source tree below a resolved one is resolved. -/
theorem SourceTree.resolved_child (h : v.SourceTree root) {loc : List String} (hp : root <+: loc)
    (hres : v.Resolved loc) {name : String} {m' : Nat} {es' : List (String × Node)}
    (hchild : v.node? (loc ++ [name]) = some (.dir m' es')) : v.Resolved (loc ++ [name]) := by
  obtain ⟨m, es, hat⟩ := parent_of_node? hchild
  have hopen := h.opens hp hat
  have hopen' := h.opens (hp.trans (List.prefix_append loc [name])) hchild
  -- the entry is named in its directory, so its name is plain and short
  have hlookup : es.lookup name = some (.dir m' es') := by
    rw [← node?_append_singleton hat name, hchild]
  obtain ⟨l₁, l₂, hsplit, -⟩ := List.lookup_eq_some_iff.mp hlookup
  have hmem : (name, Node.dir m' es') ∈ es := by simp [hsplit]
  obtain ⟨hplain, hshort, -⟩ := hopen.names _ hmem
  exact hres.child hat hopen.searchable hplain hshort (hopen'.nul_free _ _) hopen'.short hchild
    (by simp [Node.kind])

end SourceTree

end Volume

end Reword
