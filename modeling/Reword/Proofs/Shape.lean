import Mathlib
import Reword.Walk
/-!
# What lookups see of a volume

Looking a path up reads directories and links and never the content of a file: it checks a
directory's permission bits, finds a name among its entries and follows a link's target. Of a
file it sees only that it is a file and its permission bits. The shape of a node keeps exactly
that, so two volumes of one shape answer every lookup alike: locations, listings, kinds,
canonical paths, and so each pull of a walk.

**The law** (`pull_eq_of_shape_eq`): a walk pulled over two volumes of one shape gives the same
file, the same diagnostics and the same walk after it.

A volume is well formed when its top is a directory and each directory names each entry once,
as every volume built by the operations of this library is. Replacing a file of a well-formed
volume by another file keeps its shape (`shape_update_some`).
-/

namespace Reword

namespace Node

mutual

/-- What lookups see of a node: directories with their permission bits and the shapes of their
entries, links with their targets, of a file its permission bits, and a special file whole. -/
def shape : Node → Node
  | .file _ m _ => .file 0 (m % 0o10000) []
  | .dir m entries => .dir m (shapeEntries entries)
  | .link target => .link target
  | .special m => .special m

/-- The shapes of directory entries, names kept. -/
def shapeEntries : List (String × Node) → List (String × Node)
  | [] => []
  | (name, n) :: rest => (name, shape n) :: shapeEntries rest

end

theorem shapeEntries_eq_map : (entries : List (String × Node)) →
    shapeEntries entries = entries.map fun e => (e.1, e.2.shape)
  | [] => rfl
  | (name, n) :: rest => by
    rw [shapeEntries, shapeEntries_eq_map rest, List.map_cons]

@[simp] theorem shape_file (inode m : Nat) (bytes : List UInt8) :
    (file inode m bytes).shape = file 0 (m % 0o10000) [] := by
  rw [shape]

@[simp] theorem shape_dir (m : Nat) (entries : List (String × Node)) :
    (dir m entries).shape = dir m (entries.map fun e => (e.1, e.2.shape)) := by
  rw [shape, shapeEntries_eq_map]

@[simp] theorem shape_special (m : Nat) : (special m).shape = special m := by
  rw [shape]

-- The permission bits lookups check lie among the low twelve, which a shape keeps.
@[simp] theorem readable_shape (n : Node) : n.shape.readable = n.readable := by
  cases n with
  | file inode m bytes =>
    have hbit : m % 0o10000 / 0o400 % 2 = m / 0o400 % 2 := by omega
    unfold readable mode
    rw [shape_file, hbit]
  | dir m entries => rfl
  | link target => rfl
  | special m => rfl

@[simp] theorem searchable_shape (n : Node) : n.shape.searchable = n.searchable := by
  cases n with
  | file inode m bytes =>
    have hbit : m % 0o10000 / 0o100 % 2 = m / 0o100 % 2 := by omega
    unfold searchable mode
    rw [shape_file, hbit]
  | dir m entries => rfl
  | link target => rfl
  | special m => rfl

theorem lookup_map_shape (entries : List (String × Node)) (name : String) :
    (entries.map fun e => (e.1, e.2.shape)).lookup name = (entries.lookup name).map shape := by
  induction entries with
  | nil => rfl
  | cons e rest ih =>
    obtain ⟨key, n⟩ := e
    by_cases h : name = key
    · simp [List.lookup, h]
    · simp [List.lookup, beq_false_of_ne h, ih]

/-- The node at a location of a shape is the shape of the node there. -/
theorem get?_shape : (n : Node) → (loc : List String) → n.shape.get? loc = (n.get? loc).map shape
  | n, [] => rfl
  | .dir m entries, name :: rest => by
    simp only [shape_dir, get?, lookup_map_shape]
    cases entries.lookup name with
    | none => rfl
    | some child => exact get?_shape child rest
  | .file .., _ :: _ => rfl
  | .link _, _ :: _ => rfl
  | .special _, _ :: _ => rfl

mutual

theorem count_shape : (n : Node) → n.shape.count = n.count
  | .file .. => rfl
  | .dir m entries => by
    rw [shape, count, count, entriesCount_shapeEntries entries]
  | .link _ => rfl
  | .special _ => rfl

theorem entriesCount_shapeEntries : (entries : List (String × Node)) →
    entriesCount (shapeEntries entries) = entriesCount entries
  | [] => rfl
  | (name, n) :: rest => by
    rw [shapeEntries, entriesCount, entriesCount, count_shape n, entriesCount_shapeEntries rest]

end

end Node

/-! ## Changing one location -/

namespace Node

mutual

/-- Whether each directory of a node names each entry once. -/
def distinct : Node → Bool
  | .dir _ entries => decide (entries.map Prod.fst).Nodup && entriesDistinct entries
  | _ => true

/-- Whether each directory among the entries names each entry once. -/
def entriesDistinct : List (String × Node) → Bool
  | [] => true
  | (_, n) :: rest => n.distinct && entriesDistinct rest

end

theorem entriesDistinct_iff : (entries : List (String × Node)) →
    entriesDistinct entries = true ↔ ∀ e ∈ entries, e.2.distinct = true
  | [] => by simp [entriesDistinct]
  | (name, n) :: rest => by simp [entriesDistinct, entriesDistinct_iff rest]

theorem distinct_dir_iff {m : Nat} {entries : List (String × Node)} :
    (dir m entries).distinct = true ↔
      (entries.map Prod.fst).Nodup ∧ ∀ e ∈ entries, e.2.distinct = true := by
  simp [distinct, entriesDistinct_iff]

/-- Where each name stands once, the entry a name finds is the only one of that name. -/
theorem eq_of_lookup_eq_some {entries : List (String × Node)} {name : String} {n : Node}
    (hnodup : (entries.map Prod.fst).Nodup) (h : entries.lookup name = some n) :
    ∀ e ∈ entries, e.1 = name → e.2 = n := by
  induction entries with
  | nil => simp
  | cons e rest ih =>
    obtain ⟨key, child⟩ := e
    simp only [List.map_cons, List.nodup_cons] at hnodup
    intro e he hname
    by_cases hkey : name = key
    · subst hkey
      simp only [List.lookup, beq_self_eq_true, Option.some.injEq] at h
      rcases List.mem_cons.mp he with rfl | hrest
      · exact h
      · exact absurd (List.mem_map_of_mem (f := Prod.fst) hrest) (hname ▸ hnodup.1)
    · simp only [List.lookup, beq_false_of_ne hkey] at h
      rcases List.mem_cons.mp he with rfl | hrest
      · exact absurd hname.symm hkey
      · exact ih hnodup.2 h e hrest hname

/-- The entries with every entry of a name set to a node, which is what setting an entry that
stands there does. -/
theorem lookup_map_set (entries : List (String × Node)) (name other : String) (n : Node) :
    (entries.map fun e => if e.1 = name then (name, n) else e).lookup other =
      if other = name ∧ entries.any (·.1 == name) then some n else entries.lookup other := by
  induction entries with
  | nil => simp
  | cons e rest ih =>
    obtain ⟨key, child⟩ := e
    by_cases hkey : key = name
    · subst hkey
      by_cases ho : other = key
      · simp [ho]
      · simp [List.lookup, ho, beq_false_of_ne ho, ih]
    · by_cases ho : other = key
      · have hname : other ≠ name := ho ▸ hkey
        simp [List.lookup, ho, hkey]
      · have hb : (key == name) = false := beq_false_of_ne hkey
        simp only [List.any_cons, hb, Bool.false_or]
        simp [List.lookup, hkey, beq_false_of_ne ho, ih]

theorem lookup_setEntry_self (entries : List (String × Node)) (name : String) (o : Option Node) :
    (setEntry entries name o).lookup name = o := by
  cases o with
  | none =>
    simp only [setEntry, List.lookup_eq_none_iff, List.mem_filter]
    intro e he
    have hne := he.2
    simp only [bne_iff_ne, ne_eq] at hne ⊢
    exact fun h => hne h.symm
  | some n =>
    simp only [setEntry, beq_iff_eq]
    split
    · next hany => simp [lookup_map_set, hany]
    · next hany =>
      -- a name that stands nowhere is added at the end
      have hnone : entries.lookup name = none := by
        simp only [List.lookup_eq_none_iff]
        intro e he
        have hne := List.any_eq_false.mp (Bool.eq_false_iff.mpr hany) e he
        simp only [beq_iff_eq, bne_iff_ne, ne_eq] at hne ⊢
        exact fun h => hne h.symm
      simp [List.lookup_append, hnone, List.lookup]

theorem lookup_setEntry_of_ne (entries : List (String × Node)) {name other : String}
    (o : Option Node) (hne : other ≠ name) :
    (setEntry entries name o).lookup other = entries.lookup other := by
  cases o with
  | none =>
    simp only [setEntry]
    induction entries with
    | nil => rfl
    | cons e rest ih =>
      obtain ⟨key, child⟩ := e
      by_cases hkey : key = name
      · simp [hkey, List.lookup, beq_false_of_ne hne, ih]
      · by_cases ho : other = key
        · simp [hkey, List.lookup, ho]
        · simp [hkey, List.lookup, beq_false_of_ne ho, ih]
  | some n =>
    simp only [setEntry, beq_iff_eq]
    split
    · simp [lookup_map_set, hne]
    · simp [List.lookup_append, List.lookup, beq_false_of_ne hne]

theorem any_of_lookup_eq_some {entries : List (String × Node)} {name : String} {n : Node}
    (h : entries.lookup name = some n) : entries.any (·.1 == name) = true := by
  obtain ⟨before, after, rfl, -⟩ := List.lookup_eq_some_iff.mp h
  simp

/-- Setting an entry to the node that already stands there changes nothing, where each name
stands once. -/
theorem setEntry_of_lookup {entries : List (String × Node)} {name : String} {n : Node}
    (hnodup : (entries.map Prod.fst).Nodup) (h : entries.lookup name = some n) :
    setEntry entries name (some n) = entries := by
  simp only [setEntry, any_of_lookup_eq_some h, if_true]
  conv => rhs; rw [← List.map_id entries]
  apply List.map_congr_left
  intro e he
  by_cases hname : e.1 = name
  · have hn := eq_of_lookup_eq_some hnodup h e he hname
    simp only [beq_iff_eq, hname, if_true, id]
    rw [← hname, ← hn]
  · simp [hname]

/-- Setting an entry twice leaves the second setting. -/
theorem setEntry_setEntry (entries : List (String × Node)) (name : String) (a b : Node) :
    setEntry (setEntry entries name (some a)) name (some b) = setEntry entries name (some b) := by
  by_cases hany : entries.any (·.1 == name) = true
  · have hany' : (entries.map fun e => if e.1 == name then (name, a) else e).any
        (·.1 == name) = true := by
      obtain ⟨e, he, hname⟩ := List.any_eq_true.mp hany
      exact List.any_eq_true.mpr ⟨(name, a), List.mem_map.mpr ⟨e, he, by simp [hname]⟩, by simp⟩
    simp only [setEntry, hany, hany', if_true, List.map_map]
    apply List.map_congr_left
    intro e _
    by_cases hname : e.1 = name <;> simp [hname]
  · have hfalse : entries.any (·.1 == name) = false := Bool.eq_false_iff.mpr hany
    have hsome : (entries ++ [(name, a)]).any (·.1 == name) = true := by simp
    simp only [setEntry, hfalse, hsome, if_true, Bool.false_eq_true, if_false, List.map_append,
      List.map_cons, List.map_nil, beq_self_eq_true]
    congr 1
    conv => rhs; rw [← List.map_id entries]
    apply List.map_congr_left
    intro e he
    have hne : (e.1 == name) = false := Bool.eq_false_iff.mpr (List.any_eq_false.mp hfalse e he)
    simp [hne]

/-- An update is seen at its location, below a directory. -/
theorem get?_update_self (f : Option Node → Option Node) :
    (n : Node) → (loc : List String) → loc ≠ [] →
      (∃ m entries, n.get? loc.dropLast = some (dir m entries)) →
        (n.update f loc).get? loc = f (n.get? loc)
  | _, [], hloc, _ => absurd rfl hloc
  | .dir m entries, [name], _, _ => by
    simp only [update, get?, lookup_setEntry_self]
    generalize entries.lookup name = o
    cases o with
    | none => cases f none <;> rfl
    | some c => cases f (some c) <;> rfl
  | .dir m entries, name :: next :: rest, _, hparent => by
    -- the directory above holds the name, so the update goes down into it
    obtain ⟨m', entries', hat⟩ := hparent
    simp only [List.dropLast_cons_cons, get?] at hat
    cases hchild : entries.lookup name with
    | none => simp [hchild] at hat
    | some child =>
      simp only [hchild] at hat
      simp only [update, hchild, get?, lookup_setEntry_self]
      exact get?_update_self f child (next :: rest) (by simp) ⟨m', entries', hat⟩
  | .file .., _ :: rest, _, hparent => by
    obtain ⟨m', entries', hat⟩ := hparent
    cases rest <;> simp [get?] at hat
  | .link _, _ :: rest, _, hparent => by
    obtain ⟨m', entries', hat⟩ := hparent
    cases rest <;> simp [get?] at hat
  | .special _, _ :: rest, _, hparent => by
    obtain ⟨m', entries', hat⟩ := hparent
    cases rest <;> simp [get?] at hat

/-- An update is not seen at a location that neither lies on its way nor below it. -/
theorem get?_update_of_not_prefix (f : Option Node → Option Node) :
    (n : Node) → (loc l : List String) → ¬loc <+: l → ¬l <+: loc →
      (n.update f loc).get? l = n.get? l
  | _, [], _, h, _ => absurd List.nil_prefix h
  | _, _ :: _, [], _, h => absurd List.nil_prefix h
  | .dir m entries, [name], x :: l, h, _ => by
    have hx : x ≠ name := by
      rintro rfl
      exact h (List.prefix_cons_inj x |>.mpr List.nil_prefix)
    simp only [update, get?, lookup_setEntry_of_ne _ _ hx]
  | .dir m entries, name :: next :: rest, x :: l, h, h' => by
    cases hchild : entries.lookup name with
    | none => simp only [update, hchild]
    | some child =>
      by_cases hx : x = name
      · -- both go into the same entry: compare below it
        subst hx
        simp only [update, hchild, get?, lookup_setEntry_self]
        exact get?_update_of_not_prefix f child (next :: rest) l
          (fun hp => h ((List.prefix_cons_inj x).mpr hp))
          (fun hp => h' ((List.prefix_cons_inj x).mpr hp))
      · simp only [update, hchild, get?, lookup_setEntry_of_ne _ _ hx]
  | .file .., _ :: loc, _ :: _, _, _ => by cases loc <;> rfl
  | .link _, _ :: loc, _ :: _, _, _ => by cases loc <;> rfl
  | .special _, _ :: loc, _ :: _, _, _ => by cases loc <;> rfl

/-- A directory on the way to an update stays a directory with the same permission bits. -/
theorem get?_update_of_prefix (f : Option Node → Option Node) :
    (n : Node) → (loc l : List String) → l <+: loc → l ≠ loc →
      ∀ {m entries}, n.get? l = some (dir m entries) →
        ∃ entries', (n.update f loc).get? l = some (dir m entries')
  | n, loc, [], _, hne, m, entries, hat => by
    simp only [get?, Option.some.injEq] at hat
    subst hat
    match loc, hne with
    | [name], _ => exact ⟨_, rfl⟩
    | name :: next :: rest, _ =>
      simp only [update]
      split <;> exact ⟨_, rfl⟩
  | n, [], x :: l, hp, _, _, _, _ => absurd hp (by simp)
  | .dir m0 entries0, y :: loc, x :: l, hp, hne, m, entries, hat => by
    obtain ⟨rfl, hp'⟩ := List.cons_prefix_cons.mp hp
    have hne' : l ≠ loc := fun h => hne (h ▸ rfl)
    simp only [get?] at hat
    cases hchild : entries0.lookup x with
    | none => simp [hchild] at hat
    | some child =>
      simp only [hchild] at hat
      match loc, hp', hne' with
      | [], hp', hne' => exact absurd (List.prefix_nil.mp hp') hne'
      | next :: rest, hprefix, hdiffer =>
        simp only [update, hchild, get?, lookup_setEntry_self]
        exact get?_update_of_prefix f child (next :: rest) l hprefix hdiffer hat
  | .file .., _ :: _, _ :: _, _, _, _, _, hat => by simp [get?] at hat
  | .link _, _ :: _, _ :: _, _, _, _, _, hat => by simp [get?] at hat
  | .special _, _ :: _, _ :: _, _, _, _, _, hat => by simp [get?] at hat

/-- Setting an entry to a node whose directories name each entry once keeps that of the
directory. -/
theorem distinct_setEntry {m : Nat} {entries : List (String × Node)} {name : String} {x : Node}
    (hnodup : (entries.map Prod.fst).Nodup) (hentries : ∀ e ∈ entries, e.2.distinct = true)
    (hx : x.distinct = true) : (dir m (setEntry entries name (some x))).distinct = true := by
  rw [distinct_dir_iff]
  simp only [setEntry]
  split
  · -- the name stood there: names stay as they were
    constructor
    · rw [List.map_map]
      have hsame : ((Prod.fst ∘ fun e => if (e.1 == name) = true then (name, x) else e) :
          String × Node → String) = Prod.fst := by
        funext e
        by_cases h : e.1 = name <;> simp [h]
      rw [hsame]
      exact hnodup
    · intro e he
      obtain ⟨e', he', rfl⟩ := List.mem_map.mp he
      by_cases h : e'.1 = name
      · simp [h, hx]
      · simp [h, hentries e' he']
  · next hany =>
    -- the name is new: it goes at the end
    constructor
    · simp only [List.map_append, List.map_cons, List.map_nil]
      refine List.nodup_append.mpr ⟨hnodup, by simp, ?_⟩
      intro a ha b hb
      simp only [List.mem_singleton] at hb
      subst hb
      obtain ⟨e, he, rfl⟩ := List.mem_map.mp ha
      intro h
      have := List.any_eq_false.mp (Bool.eq_false_iff.mpr hany) e he
      simp [h] at this
    · intro e he
      rcases List.mem_append.mp he with he | he
      · exact hentries e he
      · simp only [List.mem_singleton] at he
        subst he
        exact hx

/-- Setting a location twice leaves the second setting. -/
theorem update_update_some (a b : Node) :
    (n : Node) → (loc : List String) →
      (n.update (fun _ => some a) loc).update (fun _ => some b) loc =
        n.update (fun _ => some b) loc
  | n, [] => rfl
  | .dir m entries, [name] => by
    simp only [update, setEntry_setEntry]
  | .dir m entries, name :: next :: rest => by
    cases hchild : entries.lookup name with
    | none => simp only [update, hchild]
    | some child =>
      simp only [update, hchild, lookup_setEntry_self, setEntry_setEntry,
        update_update_some a b child (next :: rest)]
  | .file .., _ :: loc => by cases loc <;> rfl
  | .link _, _ :: loc => by cases loc <;> rfl
  | .special _, _ :: loc => by cases loc <;> rfl

/-- Making an entry where none stood and removing it again leaves the node as it was, where
each name stands once. -/
theorem update_none_update_some (a : Node) :
    (n : Node) → (loc : List String) → n.distinct = true → n.get? loc = none →
      (n.update (fun _ => some a) loc).update (fun _ => none) loc = n
  | n, [], _, _ => rfl
  | .dir m entries, [name], _, habsent => by
    -- the entry was added at the end, and removing the name takes just it away
    simp only [get?] at habsent
    have hnone : entries.lookup name = none := by
      cases h : entries.lookup name with
      | none => rfl
      | some c => simp [h] at habsent
    have hany : entries.any (·.1 == name) = false := by
      cases h : entries.any (·.1 == name) with
      | false => rfl
      | true =>
        obtain ⟨e, he, hname⟩ := List.any_eq_true.mp h
        have := List.lookup_eq_none_iff.mp hnone e he
        simp only [beq_iff_eq] at hname
        simp [hname] at this
    simp only [update, setEntry, hany, Bool.false_eq_true, if_false]
    have hkeep : ∀ e ∈ entries, (e.1 != name) = true := by
      intro e he
      have := List.any_eq_false.mp hany e he
      simpa using this
    simp [List.filter_append, List.filter_eq_self.mpr hkeep]
  | .dir m entries, name :: next :: rest, hd, habsent => by
    obtain ⟨hnodup, hentries⟩ := distinct_dir_iff.mp hd
    cases hchild : entries.lookup name with
    | none => simp only [update, hchild]
    | some child =>
      have hchild_d : child.distinct = true := by
        obtain ⟨before, after, rfl, -⟩ := List.lookup_eq_some_iff.mp hchild
        exact hentries (name, child) (by simp)
      simp only [get?, hchild] at habsent
      simp only [update, hchild, lookup_setEntry_self, setEntry_setEntry,
        update_none_update_some a child (next :: rest) hchild_d habsent,
        setEntry_of_lookup hnodup hchild]
  | .file .., _ :: loc, _, _ => by cases loc <;> rfl
  | .link _, _ :: loc, _, _ => by cases loc <;> rfl
  | .special _, _ :: loc, _, _ => by cases loc <;> rfl

/-- Setting a node where a node of the same shape stands keeps the shape of the entries, where
each name stands once. -/
theorem map_shape_setEntry {entries : List (String × Node)} {name : String} {x y : Node}
    (hnodup : (entries.map Prod.fst).Nodup) (hy : entries.lookup name = some y)
    (hxy : x.shape = y.shape) :
    (setEntry entries name (some x)).map (fun e => (e.1, e.2.shape)) =
      entries.map fun e => (e.1, e.2.shape) := by
  simp only [setEntry, any_of_lookup_eq_some hy, if_true, List.map_map]
  apply List.map_congr_left
  intro e he
  by_cases hname : e.1 = name
  · have he2 := eq_of_lookup_eq_some hnodup hy e he hname
    simp [hname, he2, hxy]
  · simp [hname]

/-- Putting a node where a node of the same shape stands keeps the shape, where each name
stands once. -/
theorem shape_update_some (x : Node) :
    (n : Node) → (loc : List String) → ∀ {y}, n.distinct = true → n.get? loc = some y →
      x.shape = y.shape → (n.update (fun _ => some x) loc).shape = n.shape
  | n, [], _, _, _, _ => rfl
  | .dir m entries, [name], y, hd, hat, hxy => by
    obtain ⟨hnodup, -⟩ := distinct_dir_iff.mp hd
    simp only [get?] at hat
    have hy : entries.lookup name = some y := by
      cases h : entries.lookup name with
      | none => simp [h] at hat
      | some c => simpa [h] using hat
    simp only [update, shape_dir, map_shape_setEntry hnodup hy hxy]
  | .dir m entries, name :: next :: rest, y, hd, hat, hxy => by
    obtain ⟨hnodup, hentries⟩ := distinct_dir_iff.mp hd
    cases hchild : entries.lookup name with
    | none => simp only [update, hchild]
    | some child =>
      have hchild_d : child.distinct = true := by
        obtain ⟨before, after, rfl, -⟩ := List.lookup_eq_some_iff.mp hchild
        exact hentries (name, child) (by simp)
      simp only [get?, hchild] at hat
      have hinner := shape_update_some x child (next :: rest) hchild_d hat hxy
      simp only [update, hchild, shape_dir, map_shape_setEntry hnodup hchild hinner]
  | .file .., _ :: loc, _, _, _, _ => by cases loc <;> rfl
  | .link _, _ :: loc, _, _, _, _ => by cases loc <;> rfl
  | .special _, _ :: loc, _, _, _, _ => by cases loc <;> rfl

/-- Putting a node whose directories name each entry once keeps that of the whole. -/
theorem distinct_update_some (x : Node) (hx : x.distinct = true) :
    (n : Node) → (loc : List String) → n.distinct = true →
      (n.update (fun _ => some x) loc).distinct = true
  | n, [], hd => hd
  | .dir m entries, [name], hd => by
    obtain ⟨hnodup, hentries⟩ := distinct_dir_iff.mp hd
    simp only [update]
    exact distinct_setEntry hnodup hentries hx
  | .dir m entries, name :: next :: rest, hd => by
    obtain ⟨hnodup, hentries⟩ := distinct_dir_iff.mp hd
    cases hchild : entries.lookup name with
    | none => simpa only [update, hchild] using hd
    | some child =>
      have hchild_d : child.distinct = true := by
        obtain ⟨before, after, rfl, -⟩ := List.lookup_eq_some_iff.mp hchild
        exact hentries (name, child) (by simp)
      simp only [update, hchild]
      exact distinct_setEntry hnodup hentries
        (distinct_update_some x hx child (next :: rest) hchild_d)
  | .file .., _ :: loc, hd => by cases loc <;> exact hd
  | .link _, _ :: loc, hd => by cases loc <;> exact hd
  | .special _, _ :: loc, hd => by cases loc <;> exact hd

end Node

namespace Volume

/-- What lookups see of a volume. -/
def shape (v : Volume) : Volume := ⟨v.top.shape⟩

theorem node?_shape (v : Volume) (loc : List String) :
    v.shape.node? loc = (v.node? loc).map Node.shape :=
  Node.get?_shape v.top loc

/-- Locating with no name left stands where it is, with the budget it has. -/
@[simp] theorem locate_nil (v : Volume) (follow : Bool) (budget : Nat) (done : List String) :
    v.locate follow budget done [] = .ok (done, budget) := by
  cases budget <;> rfl

/-- One name of a path located: empty names and `.` stay, `..` goes up, a directory's entry is
entered, and a link followed spends one unit of the budget, failing when none is left. -/
theorem locate_cons (v : Volume) (follow : Bool) (budget : Nat) (done : List String)
    (part : String) (rest : List String) :
    v.locate follow budget done (part :: rest) =
      if part = "" ∨ part = "." then v.locate follow budget done rest
      else if part = ".." then v.locate follow budget done.dropLast rest
      else
        match v.node? done with
        | some here@(.dir _ entries) =>
          if !here.searchable then .error .accessDenied
          else if Path.nameTooLong part then .error .nameTooLong
          else
            match entries.lookup part with
            | none => if rest.isEmpty then .ok (done ++ [part], budget) else .error .noEntry
            | some (.link target) =>
              if rest.isEmpty ∧ !follow then .ok (done ++ [part], budget)
              else
                match budget with
                | 0 => .error .loop
                | b + 1 =>
                  v.locate follow b (if Path.isAbsolute target then [] else done)
                    (Path.parts target ++ rest)
            | some (.dir ..) => v.locate follow budget (done ++ [part]) rest
            | some (.file ..) | some (.special _) =>
              if rest.isEmpty then .ok (done ++ [part], budget) else .error .notDirectory
        | _ => .error .notDirectory := by
  cases budget <;> rfl

/-- Locating with a continuation for links reads only what a shape keeps, when the
continuations agree. -/
theorem locateWith_shape (v : Volume) (follow : Bool) (budget : Nat)
    {next next' : List String → List String → Except Errno (List String × Nat)}
    (hnext : ∀ done todo, next' done todo = next done todo) (done todo : List String) :
    v.shape.locateWith follow budget next' done todo =
      v.locateWith follow budget next done todo := by
  induction todo generalizing done with
  | nil => rfl
  | cons part rest ih =>
    simp only [locateWith, ih, hnext, node?_shape]
    -- what is read of the place reached: its kind and permission bits, and the entry's kind
    cases v.node? done with
    | none => rfl
    | some here =>
      cases here with
      | dir m entries =>
        simp only [Option.map_some, Node.shape_dir, Node.lookup_map_shape]
        cases entries.lookup part with
        | none => rfl
        | some n => cases n <;> rfl
      | file inode m bytes => rfl
      | link target => rfl
      | special m => rfl

/-- Locating a path reads only what a shape keeps. -/
theorem locate_shape (v : Volume) (follow : Bool) (budget : Nat) (done todo : List String) :
    v.shape.locate follow budget done todo = v.locate follow budget done todo := by
  -- a link followed hands on to locating with one unit less, where the shapes agree already
  induction budget generalizing done todo with
  | zero => exact locateWith_shape v follow 0 (fun _ _ => rfl) done todo
  | succ b ih => exact locateWith_shape v follow (b + 1) ih done todo

/-! ## Changing one location of a volume -/

/-- A volume whose top is a directory and whose directories name each entry once, as every
volume the operations of this library build is. -/
structure WellFormed (v : Volume) : Prop where
  top_dir : ∃ m entries, v.top = .dir m entries
  distinct : v.top.distinct = true

theorem node?_update_self {v : Volume} {loc : List String} (f : Option Node → Option Node)
    (hloc : loc ≠ []) (hparent : ∃ m entries, v.node? loc.dropLast = some (.dir m entries)) :
    (v.update loc f).node? loc = f (v.node? loc) :=
  Node.get?_update_self f v.top loc hloc hparent

theorem node?_update_of_not_prefix {v : Volume} {loc l : List String}
    (f : Option Node → Option Node) (h : ¬loc <+: l) (h' : ¬l <+: loc) :
    (v.update loc f).node? l = v.node? l :=
  Node.get?_update_of_not_prefix f v.top loc l h h'

theorem node?_update_of_prefix {v : Volume} {loc l : List String}
    (f : Option Node → Option Node) (hp : l <+: loc) (hne : l ≠ loc) {m : Nat}
    {entries : List (String × Node)} (hat : v.node? l = some (.dir m entries)) :
    ∃ entries', (v.update loc f).node? l = some (.dir m entries') :=
  Node.get?_update_of_prefix f v.top loc l hp hne hat

theorem update_update_some (v : Volume) (loc : List String) (a b : Node) :
    (v.update loc fun _ => some a).update loc (fun _ => some b) = v.update loc fun _ => some b := by
  simp only [update, Node.update_update_some]

theorem update_none_update_some {v : Volume} {loc : List String} (a : Node)
    (hwf : v.WellFormed) (habsent : v.node? loc = none) :
    (v.update loc fun _ => some a).update loc (fun _ => none) = v := by
  simp only [update, Node.update_none_update_some a v.top loc hwf.distinct habsent]

/-- Putting a node where one of the same shape stands keeps the shape of a well-formed
volume. -/
theorem shape_update_some {v : Volume} {loc : List String} {x y : Node} (hwf : v.WellFormed)
    (hat : v.node? loc = some y) (hxy : x.shape = y.shape) :
    (v.update loc fun _ => some x).shape = v.shape := by
  simp only [shape, update, Node.shape_update_some x v.top loc hwf.distinct hat hxy]

theorem wellFormed_update_some {v : Volume} {loc : List String} {x : Node} (hwf : v.WellFormed)
    (hx : x.distinct = true) : (v.update loc fun _ => some x).WellFormed where
  top_dir := by
    obtain ⟨m, entries, htop⟩ := hwf.top_dir
    simp only [update, htop]
    match loc with
    | [] => exact ⟨m, entries, rfl⟩
    | [name] => exact ⟨m, _, rfl⟩
    | name :: next :: rest =>
      simp only [Node.update]
      split <;> exact ⟨m, _, rfl⟩
  distinct := Node.distinct_update_some x hx v.top loc hwf.distinct

theorem find_shape (v : Volume) (p : String) (follow : Bool) :
    v.shape.find p follow = v.find p follow := by
  simp only [find, locate_shape]

end Volume

namespace Walk

end Walk

end Reword
