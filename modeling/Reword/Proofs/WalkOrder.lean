import Mathlib
import Reword.Proofs.SourceTree
/-!
# A walk gives the files of a source tree in name order

A walk takes the entries of each directory in code-unit order of their names and walks a
subdirectory where it stands. On a source tree (`Volume.SourceTree`) below a root that is its
own canonical path, nothing fails, every directory is entered once, and the files given are
ordered by their names read from the root, lexicographically, each name compared by its code
units (`Walk.Before`): a file comes before every location the walk has still to reach
(`Walk.Ahead`), since those lie below entries that come after the ones it has taken, in its
own directory or in one above.

The invariant (`Walk.Orderly`) holds of the walk before it starts and is kept by every step
(`Orderly.step`): the frames are resolved directories of the tree, one below the next by a
name that comes before every entry still waiting there; no directory entered lies ahead; the
files given are in order, come before everything ahead, and are source files (`SourceFile`:
regular files whose names end, by code units, with the extension); and every source file is
given or ahead. A walk that has ended has nothing ahead, so it has given every source file.

**The law** (`all_lists_source_files_in_name_order`): with the root its own canonical path and
a source tree there, pulling the walk to its end gives the paths of exactly the source files
below the root, in ascending lexicographic order of their names by code units, each once, and
no diagnostic. The canonical path of a root is read on the text of the links on the way to it,
so a root behind a link whose target holds `..` may not be walked at all
(`root_behind_dotdot_link_lists_nothing`); and a directory that may not be listed is skipped
with a diagnostic, which is why a source tree asks for every directory to be readable.
-/

namespace Reword

namespace Volume

/-- A location of a regular file whose name ends, by code units, with the extension. -/
def SourceFile (v : Volume) (extension : String) (loc : List String) : Prop :=
  ∃ ds name, loc = ds ++ [name] ∧ Text.endsWithUnits name extension = true ∧
    ∃ inode m bytes, v.node? loc = some (.file inode m bytes)

/-- A source file holds a node. -/
theorem SourceFile.node {v : Volume} {extension : String} {loc : List String}
    (h : v.SourceFile extension loc) : v.node? loc ≠ none := by
  obtain ⟨-, -, -, -, inode, m, bytes, hat⟩ := h
  simp [hat]

/-- A source file's last name ends with the extension. -/
theorem SourceFile.ends {v : Volume} {extension : String} {ds : List String} {name : String}
    (h : v.SourceFile extension (ds ++ [name])) : Text.endsWithUnits name extension = true := by
  obtain ⟨ds', name', heq, hends, -⟩ := h
  obtain ⟨-, hname⟩ := List.append_inj' heq rfl
  rw [List.singleton_inj.mp hname]
  exact hends

/-- A source file is not a directory. -/
theorem SourceFile.ne_dir {v : Volume} {extension : String} {loc c : List String} {m : Nat}
    {es : List (String × Node)} (h : v.SourceFile extension loc)
    (hat : v.node? c = some (.dir m es)) : loc ≠ c := by
  obtain ⟨-, -, -, -, inode, m', bytes, hfile⟩ := h
  rintro rfl
  rw [hat] at hfile
  cases hfile

/-- A location at or below a file, holding a node, is the file's own. -/
theorem eq_of_leaf_prefix {v : Volume} {c loc : List String} {n : Node}
    (hat : v.node? c = some n) (hleaf : n.kind ≠ .dir) (hp : c <+: loc)
    (hnode : v.node? loc ≠ none) : loc = c := by
  obtain ⟨rest, rfl⟩ := hp
  by_cases hrest : rest = []
  · rw [hrest, List.append_nil]
  · exact absurd (node?_below_of_not_dir hat hleaf hrest) hnode

/-- In a directory whose entries are named once each, the name of an entry finds it. -/
theorem lookup_of_mem {es : List (String × Node)} (hnodup : (es.map Prod.fst).Nodup)
    {e : String × Node} (he : e ∈ es) : es.lookup e.1 = some e.2 := by
  induction es with
  | nil => exact absurd he List.not_mem_nil
  | cons x xs ih =>
    rw [List.map_cons, List.nodup_cons] at hnodup
    rcases List.mem_cons.mp he with rfl | he
    · rw [List.lookup_cons, beq_self_eq_true]
    · have hne : e.1 ≠ x.1 := fun heq => hnodup.1 (heq ▸ List.mem_map_of_mem he)
      rw [List.lookup_cons, beq_eq_false_iff_ne.mpr hne]
      exact ih hnodup.2 he

/-- A location below a directory lies below one of its entries. -/
theorem entry_of_below {v : Volume} {loc : List String} {m : Nat} {es : List (String × Node)}
    (hat : v.node? loc = some (.dir m es)) {x : String} {more : List String}
    (hbelow : v.node? (loc ++ x :: more) ≠ none) : ∃ n, (x, n) ∈ es := by
  simp only [node?, Node.get?_append] at hat hbelow
  rw [hat, Option.bind_some] at hbelow
  simp only [Node.get?] at hbelow
  cases hlookup : es.lookup x with
  | none => simp [hlookup] at hbelow
  | some n =>
    obtain ⟨l₁, l₂, hsplit, -⟩ := List.lookup_eq_some_iff.mp hlookup
    exact ⟨n, by simp [hsplit]⟩

end Volume

/-- A frame of a walk on a source tree at `root`: a resolved directory of the tree, given by
the path of its location, and entries of it, each with the kind of the node it names, in
strictly ascending code-unit order of their names. -/
structure Frame.Fits (v : Volume) (root : List String) (f : Frame) : Prop where
  path : f.dir = Path.ofNames (Path.names f.dir)
  below : root <+: Path.names f.dir
  resolved : v.Resolved (Path.names f.dir)
  entries : ∀ e ∈ f.pending, ∃ n, v.node? (Path.names f.dir ++ [e.1]) = some n ∧ n.kind = e.2
  sorted : f.pending.Pairwise fun a b => Text.unitCodes a.1 < Text.unitCodes b.1

namespace Walk

/-! ## The order of locations -/

/-- The order a walk gives locations in: lexicographic on their names, each name compared by
its code units. -/
def Before (a b : List String) : Prop :=
  a.map Text.unitCodes < b.map Text.unitCodes

theorem Before.irrefl (a : List String) : ¬Before a a :=
  lt_irrefl _

/-- Locations that part at a name are ordered as that name. -/
theorem before_append_cons (p : List String) {x y : String} (xs ys : List String)
    (h : Text.unitCodes x < Text.unitCodes y) : Before (p ++ x :: xs) (p ++ y :: ys) := by
  unfold Before
  simp only [List.map_append, List.map_cons]
  exact List.append_left_lt (List.cons_lt_cons_iff.mpr (Or.inl h))

/-- Names are compared one by one: `a/b.kt` comes before `a-b.kt`, since `a` is a prefix of
`a-b.kt`, though `/` comes after `-` in the whole path. -/
example : Before ["a", "b.kt"] ["a-b.kt"] ∧ "a-b.kt" < "a/b.kt" := by
  unfold Before
  decide

/-- A common start does not change the order. -/
theorem before_append_iff (p a b : List String) : Before (p ++ a) (p ++ b) ↔ Before a b := by
  induction p with
  | nil => rfl
  | cons x p ih =>
    unfold Before at ih ⊢
    simp only [List.cons_append, List.map_cons, List.cons_lt_cons_iff, lt_irrefl, false_or,
      true_and]
    exact ih

/-! ## Listing a directory -/

/-- The entries of a directory as a walk takes them: each name with the kind of its node, in
code-unit order of the names. -/
def listing (es : List (String × Node)) : List (String × Kind) :=
  (es.map fun e => (e.1, e.2.kind)).mergeSort fun a b => !Text.unitLt b.1 a.1

theorem mem_listing {es : List (String × Node)} {x : String × Kind} :
    x ∈ listing es ↔ ∃ e ∈ es, (e.1, e.2.kind) = x := by
  simp [listing]

/-- The listing of a directory whose entries have distinct names without lone surrogates is in
strictly ascending code-unit order. -/
theorem listing_sorted {es : List (String × Node)} (hnodup : (es.map Prod.fst).Nodup)
    (hpaired : ∀ e ∈ es, Text.paired e.1 = true) :
    (listing es).Pairwise fun a b => Text.unitCodes a.1 < Text.unitCodes b.1 := by
  have hle := Text.pairwise_mergeSort_unitLt Prod.fst (es.map fun e => (e.1, e.2.kind))
  have hperm :=
    List.mergeSort_perm (es.map fun e => (e.1, e.2.kind)) fun a b => !Text.unitLt b.1 a.1
  have hnames : ((listing es).map Prod.fst).Nodup := by
    refine (hperm.map Prod.fst).nodup_iff.mpr ?_
    simpa [Function.comp_def] using hnodup
  have hne := List.pairwise_map.mp hnames
  refine (hle.and hne).imp_of_mem fun ha hb hab => lt_of_le_of_ne hab.1 fun hcodes => hab.2 ?_
  obtain ⟨ea, hea, rfl⟩ := mem_listing.mp ha
  obtain ⟨eb, heb, rfl⟩ := mem_listing.mp hb
  exact Text.eq_of_unitCodes_eq (hpaired ea hea) (hpaired eb heb) hcodes

/-- Entering a directory whose canonical path is its path, not entered before and listed,
marks it entered and puts its listing on top, with no diagnostic. -/
theorem enter_of_listed {v : Volume} {w : Walk} {p : String} {entries : List (String × Kind)}
    (hreal : v.realpath p = .ok p) (hnew : p ∉ w.visited) (hread : v.readDir p = .ok entries) :
    w.enter v p = ({ w with
      visited := p :: w.visited
      stack := ⟨p, entries.mergeSort fun a b => !Text.unitLt b.1 a.1⟩ :: w.stack }, []) := by
  simp [enter, hreal, hnew, hread]

/-! ## What a walk has still to reach -/

/-- The locations a walk has still to reach: at or below its root before it starts, then at or
below an entry waiting in one of its frames. -/
def Ahead (w : Walk) (loc : List String) : Prop :=
  (w.started = false ∧ Path.names w.root <+: loc) ∨
    ∃ f ∈ w.stack, ∃ e ∈ f.pending, Path.names f.dir ++ [e.1] <+: loc

section Ahead

variable {w : Walk} {loc : List String}

theorem ahead_of_started (hs : w.started = true) :
    w.Ahead loc ↔ ∃ f ∈ w.stack, ∃ e ∈ f.pending, Path.names f.dir ++ [e.1] <+: loc := by
  simp [Ahead, hs]

/-- Taking the next entry of the top frame leaves ahead what lies below the other entries. -/
theorem ahead_take {dir : String} {e : String × Kind} {rest : List (String × Kind)}
    {outer : List Frame} (hs : w.started = true) (hstack : w.stack = ⟨dir, e :: rest⟩ :: outer) :
    w.Ahead loc ↔ Path.names dir ++ [e.1] <+: loc ∨
      ({ w with stack := ⟨dir, rest⟩ :: outer } : Walk).Ahead loc := by
  rw [ahead_of_started hs, ahead_of_started (w := { w with stack := ⟨dir, rest⟩ :: outer }) hs,
    hstack]
  constructor
  · rintro ⟨f, hf, x, hx, hp⟩
    rcases List.mem_cons.mp hf with rfl | hf
    · rcases List.mem_cons.mp hx with rfl | hx
      · exact .inl hp
      · exact .inr ⟨_, List.mem_cons_self, x, hx, hp⟩
    · exact .inr ⟨f, List.mem_cons_of_mem _ hf, x, hx, hp⟩
  · rintro (hp | ⟨f, hf, x, hx, hp⟩)
    · exact ⟨_, List.mem_cons_self, e, List.mem_cons_self, hp⟩
    · rcases List.mem_cons.mp hf with rfl | hf
      · exact ⟨_, List.mem_cons_self, x, List.mem_cons_of_mem e hx, hp⟩
      · exact ⟨f, List.mem_cons_of_mem _ hf, x, hx, hp⟩

/-- Leaving a frame with nothing waiting leaves ahead what was ahead. -/
theorem ahead_leave {dir : String} {outer : List Frame} (hs : w.started = true)
    (hstack : w.stack = ⟨dir, []⟩ :: outer) :
    w.Ahead loc ↔ ({ w with stack := outer } : Walk).Ahead loc := by
  rw [ahead_of_started hs, ahead_of_started (w := { w with stack := outer }) hs, hstack]
  constructor
  · rintro ⟨f, hf, x, hx, hp⟩
    rcases List.mem_cons.mp hf with rfl | hf
    · exact absurd hx List.not_mem_nil
    · exact ⟨f, hf, x, hx, hp⟩
  · rintro ⟨f, hf, x, hx, hp⟩
    exact ⟨f, List.mem_cons_of_mem _ hf, x, hx, hp⟩

/-- Putting a frame on top adds ahead what lies below its entries. -/
theorem ahead_push {w' : Walk} {f : Frame} (hs : w.started = true) (hs' : w'.started = true)
    (hstack : w'.stack = f :: w.stack) :
    w'.Ahead loc ↔ (∃ e ∈ f.pending, Path.names f.dir ++ [e.1] <+: loc) ∨ w.Ahead loc := by
  rw [ahead_of_started hs', ahead_of_started hs, hstack]
  constructor
  · rintro ⟨g, hg, x, hx, hp⟩
    rcases List.mem_cons.mp hg with rfl | hg
    · exact .inl ⟨x, hx, hp⟩
    · exact .inr ⟨g, hg, x, hx, hp⟩
  · rintro (⟨x, hx, hp⟩ | ⟨g, hg, x, hx, hp⟩)
    · exact ⟨f, List.mem_cons_self, x, hx, hp⟩
    · exact ⟨g, List.mem_cons_of_mem _ hg, x, hx, hp⟩

end Ahead

/-- A location below a directory, other than the directory, lies below an entry of its
listing. -/
theorem below_listing {v : Volume} {c loc : List String} {m : Nat} {es : List (String × Node)}
    (hat : v.node? c = some (.dir m es)) (hp : c <+: loc) (hne : loc ≠ c)
    (hnode : v.node? loc ≠ none) : ∃ e ∈ listing es, c ++ [e.1] <+: loc := by
  obtain ⟨t, rfl⟩ := hp
  cases t with
  | nil => exact absurd (List.append_nil c) hne
  | cons x more =>
    obtain ⟨n, hn⟩ := Volume.entry_of_below hat hnode
    exact ⟨(x, n.kind), mem_listing.mpr ⟨(x, n), hn, rfl⟩, more, by simp⟩

end Walk

/-! ## Frames on a source tree -/

section Frames

variable {v : Volume} {root : List String}

/-- The listing of a resolved directory of a source tree fits as a frame. -/
theorem Frame.fits_listing (htree : v.SourceTree root) {loc : List String} (hp : root <+: loc)
    (hres : v.Resolved loc) {m : Nat} {es : List (String × Node)}
    (hat : v.node? loc = some (.dir m es)) :
    Frame.Fits v root ⟨Path.ofNames loc, Walk.listing es⟩ := by
  have hnames : Path.names (Path.ofNames loc) = loc := Path.names_ofNames hres.plain
  have hopen := htree.opens hp hat
  refine ⟨?_, ?_, ?_, fun x hx => ?_,
    Walk.listing_sorted hopen.nodup fun e he => (hopen.names e he).2.2⟩
  · show Path.ofNames loc = Path.ofNames (Path.names (Path.ofNames loc))
    rw [hnames]
  · show root <+: Path.names (Path.ofNames loc)
    rw [hnames]
    exact hp
  · show v.Resolved (Path.names (Path.ofNames loc))
    rw [hnames]
    exact hres
  · obtain ⟨e, he, rfl⟩ := Walk.mem_listing.mp hx
    refine ⟨e.2, ?_, rfl⟩
    show v.node? (Path.names (Path.ofNames loc) ++ [e.1]) = some e.2
    rw [hnames, Volume.node?_append_singleton hat, Volume.lookup_of_mem hopen.nodup he]

theorem Frame.Fits.take {dir : String} {e : String × Kind} {rest : List (String × Kind)}
    (h : Frame.Fits v root ⟨dir, e :: rest⟩) : Frame.Fits v root ⟨dir, rest⟩ :=
  ⟨h.path, h.below, h.resolved, fun x hx => h.entries x (List.mem_cons_of_mem e hx),
    (List.pairwise_cons.mp h.sorted).2⟩

/-- An entry of a frame lies below the root. -/
theorem Frame.Fits.below_entry {f : Frame} (h : f.Fits v root) (name : String) :
    root <+: Path.names f.dir ++ [name] :=
  h.below.trans (List.prefix_append _ _)

/-- An entry a frame lists as a file is a regular file. -/
theorem Frame.Fits.file_entry {f : Frame} (h : f.Fits v root) {name : String}
    (he : (name, Kind.file) ∈ f.pending) :
    ∃ inode m bytes, v.node? (Path.names f.dir ++ [name]) = some (.file inode m bytes) := by
  obtain ⟨n, hat, hkind⟩ := h.entries _ he
  cases n with
  | file inode m bytes => exact ⟨inode, m, bytes, hat⟩
  | dir m es => cases hkind
  | link target => cases hkind
  | special m => cases hkind

/-- An entry a frame lists as a directory is a directory. -/
theorem Frame.Fits.dir_entry {f : Frame} (h : f.Fits v root) {name : String}
    (he : (name, Kind.dir) ∈ f.pending) :
    ∃ m es, v.node? (Path.names f.dir ++ [name]) = some (.dir m es) := by
  obtain ⟨n, hat, hkind⟩ := h.entries _ he
  cases n with
  | file inode m bytes => cases hkind
  | dir m es => exact ⟨m, es, hat⟩
  | link target => cases hkind
  | special m => cases hkind

/-- The path of an entry of a frame is the path of its location. -/
theorem Frame.Fits.child {f : Frame} (h : f.Fits v root) (name : String) :
    Path.child f.dir name = Path.ofNames (Path.names f.dir ++ [name]) := by
  conv_lhs => rw [h.path]
  exact Path.child_ofNames h.resolved.plain name

end Frames

namespace Walk

/-! ## What one step does -/

section Steps

variable {v : Volume} {w : Walk} {dir name : String} {rest : List (String × Kind)}
  {outer : List Frame}

theorem step_of_idle (hs : w.started = false) :
    w.step v = .next (enter { w with started := true } v w.root).1
      (enter { w with started := true } v w.root).2 := by
  simp [step, hs]

theorem step_leave (hs : w.started = true) (hstack : w.stack = ⟨dir, []⟩ :: outer) :
    w.step v = .next { w with stack := outer } [] := by
  simp [step, hs, hstack]

theorem step_take_file (hs : w.started = true)
    (hstack : w.stack = ⟨dir, (name, .file) :: rest⟩ :: outer) :
    w.step v = if Text.endsWithUnits name w.extension = true then
      .found (Path.child dir name) { w with stack := ⟨dir, rest⟩ :: outer }
      else .next { w with stack := ⟨dir, rest⟩ :: outer } [] := by
  simp [step, hs, hstack, role]

theorem step_take_other (hs : w.started = true)
    (hstack : w.stack = ⟨dir, (name, .other) :: rest⟩ :: outer) :
    w.step v = .next { w with stack := ⟨dir, rest⟩ :: outer } [] := by
  simp [step, hs, hstack, role]

theorem step_take_dir (hs : w.started = true)
    (hstack : w.stack = ⟨dir, (name, .dir) :: rest⟩ :: outer) :
    w.step v = .next (enter { w with stack := ⟨dir, rest⟩ :: outer } v (Path.child dir name)).1
      (enter { w with stack := ⟨dir, rest⟩ :: outer } v (Path.child dir name)).2 := by
  simp [step, hs, hstack, role]

end Steps

/-! ## The invariant -/

/-- What a walk keeps on a source tree at `root` that does not change, with the locations
`given` of the files it has given: its frames fit, each lies below the frames under it by a
name that comes before every entry waiting there, no directory it entered lies ahead, and the
files given are source files below the root, in order, before everything ahead, and together
with what lies ahead they hold every source file below the root. -/
structure Orderly (v : Volume) (root : List String) (extension : String) (w : Walk)
    (given : List (List String)) : Prop where
  root_path : w.root = Path.ofNames root
  extension_eq : w.extension = extension
  idle : w.started = false → w.stack = [] ∧ w.visited = [] ∧ given = []
  frames : ∀ f ∈ w.stack, f.Fits v root
  nested : w.stack.Pairwise fun upper lower => ∃ n more,
    Path.names upper.dir = Path.names lower.dir ++ n :: more ∧
      ∀ e ∈ lower.pending, Text.unitCodes n < Text.unitCodes e.1
  visited : ∀ real ∈ w.visited, ∃ d, real = Path.ofNames d ∧ (∀ x ∈ d, Path.Plain x) ∧ ¬w.Ahead d
  sorted : given.Pairwise Before
  before : ∀ g ∈ given, ∀ loc, w.Ahead loc → Before g loc
  gives : ∀ g ∈ given, root <+: g ∧ v.SourceFile extension g
  complete : ∀ loc, root <+: loc → v.SourceFile extension loc → loc ∈ given ∨ w.Ahead loc
  endless : w.endless = none

section Orderly

variable {v : Volume} {root : List String} {extension : String} {w : Walk}
  {given : List (List String)} {dir name : String} {rest : List (String × Kind)}
  {outer : List Frame}

/-- A walk from a root at `root` that has not started is orderly. -/
theorem orderly_start (hres : v.Resolved root) (host : Host) (r : String)
    (hroot : (start host r extension).root = Path.ofNames root) :
    Orderly v root extension (start host r extension) [] where
  root_path := hroot
  extension_eq := rfl
  idle _ := ⟨rfl, rfl, rfl⟩
  frames _ hf := absurd hf List.not_mem_nil
  nested := List.Pairwise.nil
  visited _ hr := absurd hr List.not_mem_nil
  sorted := List.Pairwise.nil
  before _ hg := absurd hg List.not_mem_nil
  gives _ hg := absurd hg List.not_mem_nil
  complete loc hp _ := .inr (.inl ⟨rfl, by rw [hroot, Path.names_ofNames hres.plain]; exact hp⟩)
  endless := rfl

/-- The top frame of an orderly walk fits. -/
theorem Orderly.top (h : Orderly v root extension w given) {f : Frame} {fs : List Frame}
    (hstack : w.stack = f :: fs) : f.Fits v root :=
  h.frames f (by rw [hstack]; exact List.mem_cons_self)

/-- Everything left ahead once an entry is taken comes after every location below the entry:
after the entries before it in its own directory, and after the names that lead to its
directory in the directories above. -/
theorem Orderly.before_taken (h : Orderly v root extension w given)
    (hs : w.started = true) {e : String × Kind} (hstack : w.stack = ⟨dir, e :: rest⟩ :: outer)
    (tail : List String) {loc : List String}
    (hahead : ({ w with stack := ⟨dir, rest⟩ :: outer } : Walk).Ahead loc) :
    Before (Path.names dir ++ e.1 :: tail) loc := by
  obtain ⟨f, hf, x, hx, ys, rfl⟩ :=
    (ahead_of_started (w := { w with stack := ⟨dir, rest⟩ :: outer }) hs).mp hahead
  have hnested := h.nested
  rw [hstack, List.pairwise_cons] at hnested
  rcases List.mem_cons.mp hf with rfl | hf
  · -- a later entry of the same directory
    have hlt := List.rel_of_pairwise_cons (h.top hstack).sorted hx
    simpa using before_append_cons (Path.names dir) tail ys hlt
  · -- an entry of a directory further down, after the name that leads here
    obtain ⟨n, more, hnames, hlt⟩ := hnested.1 f hf
    have key := before_append_cons (Path.names f.dir) (more ++ e.1 :: tail) ys (hlt x hx)
    rw [hnames]
    simpa using key

/-- Taking an entry keeps the frames of an orderly walk fitting and nested. -/
theorem Orderly.take_frames (h : Orderly v root extension w given) {e : String × Kind}
    (hstack : w.stack = ⟨dir, e :: rest⟩ :: outer) :
    (∀ f ∈ (⟨dir, rest⟩ :: outer : List Frame), f.Fits v root) ∧
    (⟨dir, rest⟩ :: outer : List Frame).Pairwise fun upper lower => ∃ n more,
      Path.names upper.dir = Path.names lower.dir ++ n :: more ∧
        ∀ e ∈ lower.pending, Text.unitCodes n < Text.unitCodes e.1 := by
  have hnested := h.nested
  rw [hstack, List.pairwise_cons] at hnested
  refine ⟨fun f hf => ?_, List.pairwise_cons.mpr hnested⟩
  rcases List.mem_cons.mp hf with rfl | hf
  · exact (h.top hstack).take
  · exact h.frames f (by rw [hstack]; exact List.mem_cons_of_mem _ hf)

/-- An entered directory is never ahead, so a directory ahead has not been entered. -/
theorem Orderly.not_visited (h : Orderly v root extension w given) {d : List String}
    (hplain : ∀ x ∈ d, Path.Plain x) (hahead : w.Ahead d) : Path.ofNames d ∉ w.visited := by
  intro hmem
  obtain ⟨d', hd', hplain', hnot⟩ := h.visited _ hmem
  have hsame : d' = d := by
    rw [← Path.names_ofNames hplain', ← hd', Path.names_ofNames hplain]
  exact hnot (hsame ▸ hahead)

/-- A directory entered stays off what lies ahead when what lies ahead only shrinks. -/
theorem Orderly.entered_not_ahead (h : Orderly v root extension w given) {w' : Walk}
    (hsub : ∀ loc, w'.Ahead loc → w.Ahead loc) {real : String} (hr : real ∈ w.visited) :
    ∃ d, real = Path.ofNames d ∧ (∀ x ∈ d, Path.Plain x) ∧ ¬w'.Ahead d := by
  obtain ⟨d, hd, hplain, hnot⟩ := h.visited real hr
  exact ⟨d, hd, hplain, fun ha => hnot (hsub d ha)⟩

/-- A step that keeps the root, the extension, the entered directories and the files given,
leaves the frames fitting and nested, and drops from what lies ahead only locations holding no
source file left to give, keeps a walk orderly. -/
theorem Orderly.shrink (h : Orderly v root extension w given) {w' : Walk}
    (hroot : w'.root = w.root) (hext : w'.extension = w.extension) (hs' : w'.started = true)
    (hvisited : w'.visited = w.visited) (hend : w'.endless = w.endless)
    (hframes : ∀ f ∈ w'.stack, f.Fits v root)
    (hnested : w'.stack.Pairwise fun upper lower => ∃ n more,
      Path.names upper.dir = Path.names lower.dir ++ n :: more ∧
        ∀ e ∈ lower.pending, Text.unitCodes n < Text.unitCodes e.1)
    (hsub : ∀ loc, w'.Ahead loc → w.Ahead loc)
    (hdrop : ∀ loc, root <+: loc → v.SourceFile extension loc → w.Ahead loc → ¬w'.Ahead loc →
      loc ∈ given) :
    Orderly v root extension w' given where
  root_path := hroot.trans h.root_path
  extension_eq := hext.trans h.extension_eq
  idle hidle := absurd hidle (by simp [hs'])
  frames := hframes
  nested := hnested
  visited _ hr := h.entered_not_ahead hsub (hvisited ▸ hr)
  sorted := h.sorted
  before g hg loc ha := h.before g hg loc (hsub loc ha)
  gives := h.gives
  complete loc hp hsrc := by
    rcases h.complete loc hp hsrc with hg | ha
    · exact .inl hg
    · by_cases ha' : w'.Ahead loc
      · exact .inr ha'
      · exact .inl (hdrop loc hp hsrc ha ha')
  endless := hend.trans h.endless

/-- Leaving a frame with nothing waiting keeps a walk orderly. -/
theorem Orderly.leave (h : Orderly v root extension w given) (hs : w.started = true)
    (hstack : w.stack = ⟨dir, []⟩ :: outer) :
    Orderly v root extension { w with stack := outer } given := by
  have hahead : ∀ loc, w.Ahead loc ↔ ({ w with stack := outer } : Walk).Ahead loc :=
    fun _ => ahead_leave hs hstack
  have hnested := h.nested
  rw [hstack, List.pairwise_cons] at hnested
  exact h.shrink rfl rfl hs rfl rfl
    (fun f hf => h.frames f (by rw [hstack]; exact List.mem_cons_of_mem _ hf)) hnested.2
    (fun loc => (hahead loc).mpr) (fun loc _ _ ha ha' => absurd ((hahead loc).mp ha) ha')

/-- Passing over an entry that is neither a directory nor a source file keeps a walk orderly:
the only location it drops from what lies ahead is the entry's own. -/
theorem Orderly.pass (h : Orderly v root extension w given) (hs : w.started = true) {kind : Kind}
    (hstack : w.stack = ⟨dir, (name, kind) :: rest⟩ :: outer) {n : Node}
    (hat : v.node? (Path.names dir ++ [name]) = some n) (hleaf : n.kind ≠ .dir)
    (hnot : ¬v.SourceFile extension (Path.names dir ++ [name])) :
    Orderly v root extension { w with stack := ⟨dir, rest⟩ :: outer } given := by
  obtain ⟨hframes, hnested⟩ := h.take_frames hstack
  have hahead : ∀ loc, w.Ahead loc ↔ Path.names dir ++ [name] <+: loc ∨
      ({ w with stack := ⟨dir, rest⟩ :: outer } : Walk).Ahead loc :=
    fun _ => ahead_take hs hstack
  refine h.shrink rfl rfl hs rfl rfl hframes hnested
    (fun loc ha => (hahead loc).mpr (.inr ha)) ?_
  intro loc _ hsrc ha ha'
  rcases (hahead loc).mp ha with hc | ha
  · rw [Volume.eq_of_leaf_prefix hat hleaf hc hsrc.node] at hsrc
    exact absurd hsrc hnot
  · exact absurd ha ha'

/-- Giving a file whose name ends with the extension keeps a walk orderly, with the file's
location given last: it was ahead, so it comes after every file given, and everything still
ahead comes after it. -/
theorem Orderly.give (h : Orderly v root extension w given) (hs : w.started = true)
    (hstack : w.stack = ⟨dir, (name, .file) :: rest⟩ :: outer)
    (hext : Text.endsWithUnits name extension = true) :
    Orderly v root extension { w with stack := ⟨dir, rest⟩ :: outer }
      (given ++ [Path.names dir ++ [name]]) := by
  obtain ⟨hframes, hnested⟩ := h.take_frames hstack
  have hahead : ∀ loc, w.Ahead loc ↔ Path.names dir ++ [name] <+: loc ∨
      ({ w with stack := ⟨dir, rest⟩ :: outer } : Walk).Ahead loc :=
    fun _ => ahead_take hs hstack
  have hfits := h.top hstack
  obtain ⟨inode, m, bytes, hat⟩ := hfits.file_entry List.mem_cons_self
  have hsrc : v.SourceFile extension (Path.names dir ++ [name]) :=
    ⟨Path.names dir, name, rfl, hext, inode, m, bytes, hat⟩
  refine ⟨h.root_path, h.extension_eq, fun hidle => absurd hidle (by simp [hs]), hframes, hnested,
    fun real hr => ?_, ?sorted, ?before, ?gives, ?complete, ?endless⟩
  · exact h.entered_not_ahead (fun loc ha => (hahead loc).mpr (.inr ha)) hr
  case sorted =>
    refine List.pairwise_append.mpr ⟨h.sorted, List.pairwise_singleton _ _, fun g hg c hc => ?_⟩
    rw [List.mem_singleton.mp hc]
    exact h.before g hg _ ((hahead _).mpr (.inl (List.prefix_refl _)))
  case before =>
    intro g hg loc ha
    rcases List.mem_append.mp hg with hg | hg
    · exact h.before g hg loc ((hahead loc).mpr (.inr ha))
    · rw [List.mem_singleton.mp hg]
      exact h.before_taken hs hstack [] ha
  case gives =>
    intro g hg
    rcases List.mem_append.mp hg with hg | hg
    · exact h.gives g hg
    · rw [List.mem_singleton.mp hg]
      exact ⟨hfits.below_entry name, hsrc⟩
  case complete =>
    intro loc hp hsrc'
    rcases h.complete loc hp hsrc' with hg | ha
    · exact .inl (List.mem_append_left _ hg)
    · rcases (hahead loc).mp ha with hc | ha
      · rw [Volume.eq_of_leaf_prefix hat (by simp [Node.kind]) hc hsrc'.node]
        exact .inl (List.mem_append_right _ List.mem_cons_self)
      · exact .inr ha
  case endless => exact h.endless

/-- Putting the listing of a directory entry on top, the directory marked entered, keeps a walk
orderly: the new frame lies below the frame it came from by the entry's name, which comes before
the entries still waiting there, and what it adds ahead lies below the entry, ahead before. -/
theorem Orderly.push (htree : v.SourceTree root) (h : Orderly v root extension w given)
    (hs : w.started = true) (hstack : w.stack = ⟨dir, (name, .dir) :: rest⟩ :: outer) {m : Nat}
    {es : List (String × Node)} (hat : v.node? (Path.names dir ++ [name]) = some (.dir m es))
    {w' : Walk} (hroot : w'.root = w.root) (hext : w'.extension = w.extension)
    (hs' : w'.started = true)
    (hvisited : w'.visited = Path.ofNames (Path.names dir ++ [name]) :: w.visited)
    (hstack' : w'.stack =
      ⟨Path.ofNames (Path.names dir ++ [name]), listing es⟩ :: ⟨dir, rest⟩ :: outer)
    (hend : w'.endless = w.endless) :
    Orderly v root extension w' given := by
  obtain ⟨hframes, hnested⟩ := h.take_frames hstack
  have hfits := h.top hstack
  have hres := htree.resolved_child hfits.below hfits.resolved hat
  have hnames : Path.names (Path.ofNames (Path.names dir ++ [name])) = Path.names dir ++ [name] :=
    Path.names_ofNames hres.plain
  have htake : ∀ loc, w.Ahead loc ↔ Path.names dir ++ [name] <+: loc ∨
      ({ w with stack := ⟨dir, rest⟩ :: outer } : Walk).Ahead loc :=
    fun _ => ahead_take hs hstack
  have hpush : ∀ loc, w'.Ahead loc ↔
      (∃ e ∈ listing es, Path.names dir ++ [name] ++ [e.1] <+: loc) ∨
        ({ w with stack := ⟨dir, rest⟩ :: outer } : Walk).Ahead loc := by
    intro loc
    rw [ahead_push (w := { w with stack := ⟨dir, rest⟩ :: outer }) hs hs' hstack', hnames]
  have hsub : ∀ loc, w'.Ahead loc → w.Ahead loc := by
    intro loc ha
    rcases (hpush loc).mp ha with ⟨e, -, hp⟩ | ha
    · exact (htake loc).mpr (.inl ((List.prefix_append _ _).trans hp))
    · exact (htake loc).mpr (.inr ha)
  refine ⟨hroot.trans h.root_path, hext.trans h.extension_eq,
    fun hidle => absurd hidle (by simp [hs']), ?frames, ?nested, ?visited, h.sorted,
    fun g hg loc ha => h.before g hg loc (hsub loc ha), h.gives, ?complete, hend.trans h.endless⟩
  case frames =>
    intro f hf
    rw [hstack'] at hf
    rcases List.mem_cons.mp hf with rfl | hf
    · exact Frame.fits_listing htree (hfits.below_entry name) hres hat
    · exact hframes f hf
  case nested =>
    rw [hstack']
    refine List.pairwise_cons.mpr ⟨fun f hf => ?_, hnested⟩
    show ∃ n more, Path.names (Path.ofNames (Path.names dir ++ [name])) =
      Path.names f.dir ++ n :: more ∧ ∀ e ∈ f.pending, Text.unitCodes n < Text.unitCodes e.1
    rw [hnames]
    rcases List.mem_cons.mp hf with rfl | hf
    · exact ⟨name, [], rfl, fun e he => List.rel_of_pairwise_cons hfits.sorted he⟩
    · have hnested₀ := h.nested
      rw [hstack, List.pairwise_cons] at hnested₀
      obtain ⟨n, more, hdir, hlt⟩ := hnested₀.1 f hf
      exact ⟨n, more ++ [name], by rw [hdir]; simp, hlt⟩
  case visited =>
    intro real hr
    rw [hvisited] at hr
    rcases List.mem_cons.mp hr with rfl | hr
    · -- the entry itself lies below none of its own entries, and before all else ahead
      refine ⟨_, rfl, hres.plain, fun ha => ?_⟩
      rcases (hpush _).mp ha with ⟨e, -, hp⟩ | ha
      · simpa using hp.length_le
      · exact Before.irrefl _ (h.before_taken hs hstack [] ha)
    · exact h.entered_not_ahead hsub hr
  case complete =>
    intro loc hp hsrc
    rcases h.complete loc hp hsrc with hg | ha
    · exact .inl hg
    · refine .inr ((hpush loc).mpr ?_)
      rcases (htake loc).mp ha with hc | ha
      · exact .inl (below_listing hat hc (hsrc.ne_dir hat) hsrc.node)
      · exact .inr ha

/-- Taking a directory entry of an orderly walk on a source tree enters it with no diagnostic
and keeps the walk orderly: the entry is resolved, ahead and so not entered, and listed. -/
theorem Orderly.enter_entry (htree : v.SourceTree root) (h : Orderly v root extension w given)
    (hs : w.started = true) (hstack : w.stack = ⟨dir, (name, .dir) :: rest⟩ :: outer) :
    ∃ w', enter { w with stack := ⟨dir, rest⟩ :: outer } v (Path.child dir name) = (w', []) ∧
      Orderly v root extension w' given := by
  have hfits := h.top hstack
  obtain ⟨m, es, hat⟩ := hfits.dir_entry List.mem_cons_self
  have hres := htree.resolved_child hfits.below hfits.resolved hat
  have hnew : Path.ofNames (Path.names dir ++ [name]) ∉ w.visited :=
    h.not_visited hres.plain ((ahead_take hs hstack).mpr (.inl (List.prefix_refl _)))
  have hread :=
    Volume.readDir_of_resolved hres hat (htree.opens (hfits.below_entry name) hat).readable
  rw [hfits.child name,
    enter_of_listed (w := { w with stack := ⟨dir, rest⟩ :: outer })
      (Volume.realpath_of_resolved hres) hnew hread]
  exact ⟨_, rfl, h.push htree hs hstack hat rfl rfl hs rfl rfl rfl⟩

/-- Listing the root of a source tree at the start keeps a walk orderly: nothing was given, and
every source file lies below an entry of the root. -/
theorem Orderly.open_root (htree : v.SourceTree root) (hres : v.Resolved root)
    (h : Orderly v root extension w given) (hidle : w.started = false) {m : Nat}
    {es : List (String × Node)} (hat : v.node? root = some (.dir m es)) {w' : Walk}
    (hroot : w'.root = w.root) (hext : w'.extension = w.extension) (hs' : w'.started = true)
    (hvisited : w'.visited = [Path.ofNames root])
    (hstack' : w'.stack = [⟨Path.ofNames root, listing es⟩]) (hend : w'.endless = w.endless) :
    Orderly v root extension w' given := by
  obtain ⟨-, -, rfl⟩ := h.idle hidle
  have hnames : Path.names (Path.ofNames root) = root := Path.names_ofNames hres.plain
  have hahead : ∀ loc, w'.Ahead loc ↔ ∃ e ∈ listing es, root ++ [e.1] <+: loc := by
    intro loc
    rw [ahead_of_started hs', hstack']
    simp [hnames]
  refine ⟨hroot.trans h.root_path, hext.trans h.extension_eq,
    fun hidle' => absurd hidle' (by simp [hs']), ?frames, ?nested, ?visited, List.Pairwise.nil,
    fun _ hg => absurd hg List.not_mem_nil, fun _ hg => absurd hg List.not_mem_nil, ?complete,
    hend.trans h.endless⟩
  case frames =>
    intro f hf
    rw [hstack', List.mem_singleton] at hf
    rw [hf]
    exact Frame.fits_listing htree (List.prefix_refl root) hres hat
  case nested =>
    rw [hstack']
    exact List.pairwise_singleton _ _
  case visited =>
    intro real hr
    rw [hvisited, List.mem_singleton] at hr
    refine ⟨root, hr, hres.plain, fun ha => ?_⟩
    obtain ⟨e, -, hp⟩ := (hahead root).mp ha
    simpa using hp.length_le
  case complete =>
    intro loc hp hsrc
    exact .inr ((hahead loc).mpr (below_listing hat hp (hsrc.ne_dir hat) hsrc.node))

/-- Every step of an orderly walk on a source tree goes on with no diagnostic, gives the next
source file, or ends, and keeps the walk orderly. -/
theorem Orderly.step (htree : v.SourceTree root) (hres : v.Resolved root)
    (h : Orderly v root extension w given) :
    (∃ w', w.step v = .next w' [] ∧ Orderly v root extension w' given) ∨
    (∃ loc w', w.step v = .found (Path.ofNames loc) w' ∧
      Orderly v root extension w' (given ++ [loc])) ∨
    w.step v = .ended := by
  cases hs : w.started
  · -- the start lists the root, which is resolved and entered by nobody yet
    obtain ⟨hstack, hvisited, -⟩ := h.idle hs
    obtain ⟨m, es, hat⟩ := htree.root_dir
    have hread :=
      Volume.readDir_of_resolved hres hat (htree.opens (List.prefix_refl root) hat).readable
    have henter := enter_of_listed (w := { w with started := true })
      (Volume.realpath_of_resolved hres) (by simp [hvisited]) hread
    rw [← h.root_path] at henter
    refine .inl ⟨_, by rw [step_of_idle hs, henter], ?_⟩
    exact h.open_root htree hres hs hat rfl rfl rfl (by simp [hvisited, h.root_path])
      (by simp [hstack, h.root_path, listing]) rfl
  · rcases hstack : w.stack with _ | ⟨⟨dir, _ | ⟨⟨name, kind⟩, rest⟩⟩, outer⟩
    · exact .inr (.inr (step_eq_ended.mpr ⟨hs, hstack⟩))
    · exact .inl ⟨_, step_leave hs hstack, h.leave hs hstack⟩
    · obtain ⟨n, hat, hkind⟩ := (h.top hstack).entries (name, kind) List.mem_cons_self
      cases n with
      | file inode m bytes =>
        cases hkind
        rw [step_take_file hs hstack]
        by_cases hext : Text.endsWithUnits name extension = true
        · rw [if_pos (h.extension_eq ▸ hext), (h.top hstack).child name]
          exact .inr (.inl ⟨_, _, rfl, h.give hs hstack hext⟩)
        · rw [if_neg (h.extension_eq ▸ hext)]
          exact .inl ⟨_, rfl, h.pass hs hstack hat (by simp [Node.kind])
            fun hsrc => hext hsrc.ends⟩
      | dir m es =>
        cases hkind
        obtain ⟨w', henter, h'⟩ := h.enter_entry htree hs hstack
        exact .inl ⟨w', by rw [step_take_dir hs hstack, henter], h'⟩
      | link target => exact absurd hat (htree.not_link ((h.top hstack).below_entry name))
      | special m =>
        -- a special file is passed over, being no source file
        cases hkind
        refine .inl ⟨_, step_take_other hs hstack, h.pass hs hstack hat (by simp [Node.kind]) ?_⟩
        rintro ⟨-, -, -, -, inode, m', bytes, hfile⟩
        rw [hat] at hfile
        cases hfile

/-- At the end of an orderly walk nothing lies ahead, so the files given are exactly the source
files below the root, in order. -/
theorem Orderly.given_of_ended (h : Orderly v root extension w given) (hend : w.step v = .ended) :
    given.Pairwise Before ∧ ∀ loc, loc ∈ given ↔ root <+: loc ∧ v.SourceFile extension loc := by
  obtain ⟨hs, hstack⟩ := step_eq_ended.mp hend
  have hnone : ∀ loc, ¬w.Ahead loc := by
    intro loc ha
    rw [ahead_of_started hs, hstack] at ha
    simp at ha
  exact ⟨h.sorted, fun loc =>
    ⟨h.gives loc, fun ⟨hp, hsrc⟩ => (h.complete loc hp hsrc).resolve_right (hnone loc)⟩⟩

/-- An orderly walk has given no more files than the volume has nodes: the files given are
distinct locations of the volume. -/
theorem Orderly.length_le (h : Orderly v root extension w given) : given.length ≤ v.nodeCount := by
  have hnodup : given.Nodup := h.sorted.imp fun hab heq => by
    subst heq
    exact Before.irrefl _ hab
  have hsub : given ⊆ v.locations := fun g hg =>
    Volume.mem_locations (Option.isSome_iff_ne_none.mpr (h.gives g hg).2.node)
  rw [← v.length_locations]
  exact (hnodup.subperm hsub).length_le

/-- Stepping an orderly walk on a source tree with more steps than its measure meets no
diagnostic, and either ends the walk, giving nothing, or gives the next source file. -/
theorem Orderly.advance (htree : v.SourceTree root) (hres : v.Resolved root) :
    ∀ {fuel : Nat} {w : Walk} {given : List (List String)} {errors : List Diagnostic},
      w.measure v < fuel → Orderly v root extension w given →
      (Walk.advance v fuel w errors).errors = errors ∧
      (((Walk.advance v fuel w errors).next = none ∧
          (Walk.advance v fuel w errors).walk.step v = .ended ∧
          Orderly v root extension (Walk.advance v fuel w errors).walk given) ∨
        ∃ loc, (Walk.advance v fuel w errors).next = some (Path.ofNames loc) ∧
          Orderly v root extension (Walk.advance v fuel w errors).walk (given ++ [loc])) := by
  intro fuel
  -- on the steps left; each step that goes on lowers the measure
  induction fuel with
  | zero => exact fun hfuel _ => absurd hfuel (Nat.not_lt_zero _)
  | succ fuel ih =>
    intro w given errors hfuel h
    rw [advance_succ]
    rcases h.step htree hres with ⟨w', hstep, h'⟩ | ⟨loc, w', hstep, h'⟩ | hstep
    · have hlt := step_measure hstep
      simp only [hstep, List.append_nil]
      exact ih (by omega) h'
    · rw [hstep]
      exact ⟨rfl, .inr ⟨loc, rfl, h'⟩⟩
    · rw [hstep]
      exact ⟨rfl, .inl ⟨rfl, hstep, h⟩⟩

/-- A pull of an orderly walk on a source tree meets no diagnostic, and either ends the walk or
gives the next source file. -/
theorem Orderly.pull (htree : v.SourceTree root) (hres : v.Resolved root)
    (h : Orderly v root extension w given) :
    (w.pull v).errors = [] ∧
    (((w.pull v).next = none ∧ (w.pull v).walk.step v = .ended ∧
        Orderly v root extension (w.pull v).walk given) ∨
      ∃ loc, (w.pull v).next = some (Path.ofNames loc) ∧
        Orderly v root extension (w.pull v).walk (given ++ [loc])) :=
  Orderly.advance htree hres (measure_lt_budget w v) h

/-- Pulling an orderly walk on a source tree to its end, with more pulls than the volume has
nodes left over the files given, adds no diagnostic and gives, after the files given, the rest
of the source files below the root, so that all of them are given, each once, in order. -/
theorem Orderly.drain (htree : v.SourceTree root) (hres : v.Resolved root) :
    ∀ {fuel : Nat} {w : Walk} {given : List (List String)} {errors : List Diagnostic},
      v.nodeCount < fuel + given.length → Orderly v root extension w given →
      ∃ final : List (List String),
        Walk.drain v fuel w (given.map Path.ofNames) errors = some (final.map Path.ofNames, errors) ∧
        final.Pairwise Before ∧ ∀ loc, loc ∈ final ↔ root <+: loc ∧ v.SourceFile extension loc := by
  intro fuel
  -- on the pulls left; each pull but the last gives one more of at most as many files as nodes
  induction fuel with
  | zero =>
    intro w given errors hfuel h
    have hlen := h.length_le
    omega
  | succ fuel ih =>
    intro w given errors hfuel h
    obtain ⟨herrors, ⟨hnone, hend, h'⟩ | ⟨loc, hsome, h'⟩⟩ := Orderly.pull htree hres h
    · refine ⟨given, ?_, h'.given_of_ended hend⟩
      simp only [Walk.drain, hnone, herrors, h'.endless, List.append_nil]
    · obtain ⟨final, hdrain, hfinal⟩ :=
        ih (by rw [List.length_append, List.length_singleton]; omega) h'
      rw [List.map_append, List.map_singleton] at hdrain
      refine ⟨final, ?_, hfinal⟩
      simp only [Walk.drain, hsome, herrors, h'.endless, List.append_nil]
      exact hdrain

end Orderly

/-- On a source tree whose root is its own canonical path, a walk gives, with no diagnostic,
exactly the regular files below the root whose names end with the extension by code units, each
once, in ascending order of their names below the root: name by name, each name by its code
units. -/
theorem all_lists_source_files_in_name_order (host : Host) (root extension : String) (v : Volume)
    (hcanon : v.realpath (start host root extension).root = .ok (start host root extension).root)
    (htree : v.SourceTree (Path.names (start host root extension).root)) :
    ∃ files : List (List String),
      (start host root extension).all v =
        some (files.map fun ns => Path.ofNames (Path.names (start host root extension).root ++ ns),
          []) ∧
      (files.map (List.map Text.unitCodes)).Pairwise (· < ·) ∧
      ∀ ns, ns ∈ files ↔
        v.SourceFile extension (Path.names (start host root extension).root ++ ns) := by
  obtain ⟨r, hr, hres⟩ := Volume.realpath_resolved hcanon
  have hnames : Path.names (start host root extension).root = r := by
    rw [hr, Path.names_ofNames hres.plain]
  rw [hnames] at htree ⊢
  have hfuel : v.nodeCount < pullLimit v + ([] : List (List String)).length := by
    have := Nat.le_mul_of_pos_right (v.nodeCount + 1) (by omega : 0 < v.nodeCount + 2)
    simp only [pullLimit, List.length_nil]
    omega
  obtain ⟨final, hdrain, hsorted, hmem⟩ :=
    @Orderly.drain v r extension htree hres _ _ _ [] hfuel (orderly_start hres host root hr)
  have hall : (start host root extension).all v = some (final.map Path.ofNames, []) := hdrain
  -- every file given lies below the root, so it is the root followed by the rest
  have hsplit : ∀ g ∈ final, r ++ g.drop r.length = g := fun g hg =>
    (List.prefix_iff_eq_append.mp ((hmem g).mp hg).1)
  refine ⟨final.map (List.drop r.length), ?_, ?_, fun ns => ⟨fun hns => ?_, fun hsrc => ?_⟩⟩
  · rw [hall, List.map_map]
    congr 2
    refine List.map_congr_left fun g hg => ?_
    show Path.ofNames g = Path.ofNames (r ++ g.drop r.length)
    rw [hsplit g hg]
  · rw [List.pairwise_map, List.pairwise_map]
    refine hsorted.imp_of_mem fun ha hb hab => ?_
    rw [← hsplit _ ha, ← hsplit _ hb, before_append_iff] at hab
    exact hab
  · obtain ⟨g, hg, rfl⟩ := List.mem_map.mp hns
    rw [hsplit g hg]
    exact ((hmem g).mp hg).2
  · exact List.mem_map.mpr ⟨r ++ ns, (hmem _).mpr ⟨List.prefix_append _ _, hsrc⟩, List.drop_left⟩

/-- A tree at `/ws` with a file below a directory `a`, a file `a-b.kt` beside it, a file of
another extension and a directory whose name ends with the extension is a source tree whose
root is canonical, and its walk gives just its two source files in name order. -/
theorem source_files_of_small_tree_in_name_order :
    let v : Volume := ⟨.dir 0o755 [("ws", .dir 0o755 [
      ("a-b.kt", .file 1 0o644 [120]), ("c.txt", .file 2 0o644 []),
      ("a", .dir 0o755 [("b.kt", .file 3 0o644 [121])]), ("d.kt", .dir 0o755 [])])]⟩
    let w := start (Host.standard "/" 7) "/ws" ".kt"
    v.realpath w.root = .ok w.root ∧ v.SourceTree (Path.names w.root) ∧
    ∃ files : List (List String),
      w.all v = some (files.map fun ns => Path.ofNames (Path.names w.root ++ ns), []) ∧
      (files.map (List.map Text.unitCodes)).Pairwise (· < ·) ∧
      ∀ ns, ns ∈ files ↔ v.SourceFile ".kt" (Path.names w.root ++ ns) := by
  intro v w
  have hcanon : v.realpath w.root = .ok w.root := by decide +kernel
  have htree : v.SourceTree (Path.names w.root) := by decide +kernel
  exact ⟨hcanon, htree, all_lists_source_files_in_name_order _ _ _ v hcanon htree⟩

/-- A root below a link whose target ends in `..` is read on the text: `/ws/r/c/t` is the
directory `/ws/e/t` of a source tree holding the source file `f.kt`, but its canonical path is
read as `/ws/x/t`, which does not exist, and the walk gives no file and one diagnostic. -/
theorem root_behind_dotdot_link_lists_nothing :
    let v : Volume := ⟨.dir 0o755 [("ws", .dir 0o755 [
      ("e", .dir 0o755 [("d", .dir 0o755 []), ("t", .dir 0o755 [("f.kt", .file 1 0o644 [120])])]),
      ("x", .dir 0o755 [("s", .link "/ws/e/d")]),
      ("r", .dir 0o755 [("c", .link "/ws/x/s/..")])])]⟩
    let w := start (Host.standard "/" 7) "/ws/r/c/t" ".kt"
    v.find w.root true = .ok ["ws", "e", "t"] ∧ v.SourceTree ["ws", "e", "t"] ∧
    v.SourceFile ".kt" ["ws", "e", "t", "f.kt"] ∧
    (w.all v).map Prod.fst = some [] ∧
      (w.all v).map (fun r => r.2.map Diagnostic.code) = some [.directorySkipped] := by
  intro v w
  have hsrc : v.SourceFile ".kt" ["ws", "e", "t", "f.kt"] :=
    ⟨["ws", "e", "t"], "f.kt", rfl, by decide +kernel, 1, 0o644, [120], rfl⟩
  refine ⟨?_, ?_, hsrc, ?_, ?_⟩ <;> decide +kernel

end Walk

end Reword
