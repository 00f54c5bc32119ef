import Mathlib
import Reword.Proofs.AtomicWrite
/-!
# Volumes a file system shows

A file system names each entry of a directory once, by a plain name: not empty, not `.` or
`..`, and without a slash. A volume may be built otherwise, but none of the calls of this
library makes one so: every call changes a volume at a location it has looked up, and a lookup
ends at a location of plain names (`locate_plain`), whatever links it follows; setting an entry
replaces the entry of its name or adds one (`Node.proper_setEntry`).

**The law** (`TextFile.writeAtomic_proper`): replacing the text of a file through a temporary
file keeps a volume proper, whichever of its calls fails, the removal of the temporary file
included (`TextFile.abandon_proper`).
-/

namespace Reword

namespace Node

mutual

/-- Whether every directory of a node names its entries plainly. -/
def plainNames : Node → Bool
  | .dir _ entries => decide (∀ e ∈ entries, Path.Plain e.1) && entriesPlainNames entries
  | _ => true

/-- Whether every directory among the entries names its entries plainly. -/
def entriesPlainNames : List (String × Node) → Bool
  | [] => true
  | (_, n) :: rest => n.plainNames && entriesPlainNames rest

end

theorem entriesPlainNames_iff (entries : List (String × Node)) :
    entriesPlainNames entries = true ↔ ∀ e ∈ entries, e.2.plainNames = true := by
  induction entries with
  | nil => simp [entriesPlainNames]
  | cons e rest ih => simp [entriesPlainNames, ih]

theorem plainNames_dir_iff {m : Nat} {entries : List (String × Node)} :
    (dir m entries).plainNames = true ↔
      (∀ e ∈ entries, Path.Plain e.1) ∧ ∀ e ∈ entries, e.2.plainNames = true := by
  simp [plainNames, entriesPlainNames_iff]

/-- A node whose directories name each entry once, by a plain name. -/
def Proper (n : Node) : Prop :=
  n.distinct = true ∧ n.plainNames = true

theorem proper_dir_iff {m : Nat} {entries : List (String × Node)} :
    (dir m entries).Proper ↔ (entries.map Prod.fst).Nodup ∧
      (∀ e ∈ entries, Path.Plain e.1) ∧ ∀ e ∈ entries, e.2.Proper := by
  simp only [Proper, distinct_dir_iff, plainNames_dir_iff]
  constructor
  · rintro ⟨⟨hnodup, hd⟩, hplain, hp⟩
    exact ⟨hnodup, hplain, fun e he => ⟨hd e he, hp e he⟩⟩
  · rintro ⟨hnodup, hplain, h⟩
    exact ⟨⟨hnodup, fun e he => (h e he).1⟩, hplain, fun e he => (h e he).2⟩

/-- Below a proper node every node is proper. -/
theorem proper_get? : (n : Node) → (loc : List String) → {x : Node} → n.Proper →
    n.get? loc = some x → x.Proper
  | n, [], _, hn, h => by
    simp only [get?, Option.some.injEq] at h
    exact h ▸ hn
  | .dir _ entries, name :: rest, x, hn, h => by
    simp only [get?] at h
    split at h
    · next child hchild =>
      obtain ⟨before, after, rfl, -⟩ := List.lookup_eq_some_iff.mp hchild
      exact proper_get? child rest ((proper_dir_iff.mp hn).2.2 (name, child) (by simp)) h
    · simp at h
  | .file .., _ :: _, _, _, h => by simp [get?] at h
  | .link _, _ :: _, _, _, h => by simp [get?] at h
  | .special _, _ :: _, _, _, h => by simp [get?] at h

/-- The entries after setting one are entries that were there, or the one set. -/
theorem mem_setEntry {entries : List (String × Node)} {name : String} {x : Option Node}
    {e : String × Node} (he : e ∈ setEntry entries name x) :
    e ∈ entries ∨ ∃ n, x = some n ∧ e = (name, n) := by
  cases x with
  | none => exact .inl (List.mem_filter.mp he).1
  | some n =>
    simp only [setEntry] at he
    split at he
    · obtain ⟨e', he', rfl⟩ := List.mem_map.mp he
      by_cases h : e'.1 = name
      · exact .inr ⟨n, rfl, by simp [h]⟩
      · exact .inl (by simpa [h] using he')
    · rcases List.mem_append.mp he with he | he
      · exact .inl he
      · exact .inr ⟨n, rfl, List.mem_singleton.mp he⟩

/-- Setting an entry of a plain name to a proper node, or removing it, keeps a directory
proper. -/
theorem proper_setEntry {m : Nat} {entries : List (String × Node)} {name : String}
    {x : Option Node} (hdir : (dir m entries).Proper) (hname : Path.Plain name)
    (hx : ∀ n, x = some n → n.Proper) : (dir m (setEntry entries name x)).Proper := by
  obtain ⟨hnodup, hplain, hentries⟩ := proper_dir_iff.mp hdir
  have hnodup' : ((setEntry entries name x).map Prod.fst).Nodup := by
    cases x with
    | none => exact (List.filter_sublist.map Prod.fst).nodup hnodup
    | some n =>
      have hd : (dir m (setEntry entries name (some n))).distinct = true :=
        distinct_setEntry hnodup (fun e he => (hentries e he).1) (hx n rfl).1
      exact (distinct_dir_iff.mp hd).1
  refine proper_dir_iff.mpr ⟨hnodup', fun e he => ?_, fun e he => ?_⟩
  · rcases mem_setEntry he with he | ⟨n, -, rfl⟩
    · exact hplain e he
    · exact hname
  · rcases mem_setEntry he with he | ⟨n, hn, rfl⟩
    · exact hentries e he
    · exact hx n hn

/-- Setting a location of plain names to a proper node, or removing it, keeps a node proper. -/
theorem proper_update {x : Option Node} (hx : ∀ n, x = some n → n.Proper) :
    (n : Node) → (loc : List String) → (∀ s ∈ loc, Path.Plain s) → n.Proper →
      (n.update (fun _ => x) loc).Proper
  | n, [], _, hn => hn
  | .dir m entries, [name], hloc, hn => by
    simp only [update]
    exact proper_setEntry hn (hloc name List.mem_cons_self) hx
  | .dir m entries, name :: next :: rest, hloc, hn => by
    cases hchild : entries.lookup name with
    | none => simpa only [update, hchild] using hn
    | some child =>
      have hchildProper : child.Proper := by
        obtain ⟨before, after, rfl, -⟩ := List.lookup_eq_some_iff.mp hchild
        exact (proper_dir_iff.mp hn).2.2 (name, child) (by simp)
      simp only [update, hchild]
      refine proper_setEntry hn (hloc name List.mem_cons_self) fun n hn' => ?_
      cases hn'
      exact proper_update hx child (next :: rest) (fun s hs => hloc s (List.mem_cons_of_mem _ hs))
        hchildProper
  | .file .., _ :: loc, _, hn => by cases loc <;> exact hn
  | .link _, _ :: loc, _, hn => by cases loc <;> exact hn
  | .special _, _ :: loc, _, hn => by cases loc <;> exact hn

end Node

namespace Volume

/-! ## Lookups end at plain names -/

/-- A lookup ends at a location of plain names, whatever links it follows: every name it
enters or makes is a part of a path, neither empty nor `.` nor `..`. -/
theorem locate_plain (v : Volume) (follow : Bool) (budget : Nat) :
    ∀ (done todo : List String), (∀ n ∈ done, Path.Plain n) → (∀ s ∈ todo, '/' ∉ s.toList) →
      ∀ {r : List String × Nat}, v.locate follow budget done todo = .ok r →
        ∀ n ∈ r.1, Path.Plain n := by
  -- a link followed spends one of the budget, and the names after it are read again
  induction budget using Nat.strong_induction_on with
  | _ budget ihb =>
    intro done todo hdone htodo
    induction todo generalizing done with
    | nil =>
      intro r h
      rw [locate_nil, Except.ok.injEq] at h
      exact h ▸ hdone
    | cons part rest ih =>
      intro r h
      have hrest : ∀ s ∈ rest, '/' ∉ s.toList := fun s hs => htodo s (List.mem_cons_of_mem _ hs)
      rw [locate_cons] at h
      by_cases hskip : part = "" ∨ part = "."
      · rw [if_pos hskip] at h
        exact ih done hdone hrest h
      rw [if_neg hskip] at h
      by_cases hup : part = ".."
      · rw [if_pos hup] at h
        exact ih _ (fun n hn => hdone n (List.dropLast_subset _ hn)) hrest h
      rw [if_neg hup] at h
      have hsnoc : ∀ n ∈ done ++ [part], Path.Plain n := by
        simp only [not_or] at hskip
        intro n hn
        rcases List.mem_append.mp hn with hn | hn
        · exact hdone n hn
        · exact List.mem_singleton.mp hn ▸ ⟨hskip.1, hskip.2, hup, htodo part List.mem_cons_self⟩
      -- the name is entered, made, or a link there is read in its place
      split at h
      · split at h
        · cases h
        split at h
        · cases h
        split at h
        · split at h
          · cases h
            exact hsnoc
          · cases h
        · split at h
          · cases h
            exact hsnoc
          split at h
          · cases h
          · next _ target _ _ _ b =>
            have hfrom : ∀ n ∈ (if Path.isAbsolute target then [] else done), Path.Plain n := by
              split
              · exact fun n hn => absurd hn List.not_mem_nil
              · exact hdone
            have hparts : ∀ s ∈ Path.parts target ++ rest, '/' ∉ s.toList := by
              intro s hs
              rcases List.mem_append.mp hs with hs | hs
              · exact Path.slash_not_mem_of_mem_parts hs
              · exact hrest s hs
            exact ihb b (Nat.lt_succ_self b) _ _ hfrom hparts h
        · exact ih _ hsnoc hrest h
        · split at h
          · cases h
            exact hsnoc
          · cases h
        · split at h
          · cases h
            exact hsnoc
          · cases h
      · cases h

/-- A path's location, looked up, is one of plain names. -/
theorem find_plain {v : Volume} {p : String} {follow : Bool} {loc : List String}
    (h : v.find p follow = .ok loc) : ∀ n ∈ loc, Path.Plain n := by
  unfold find at h
  split at h
  · cases h
  · cases hloc : v.locate follow linkLimit [] (Path.parts p) with
    | error e => simp [hloc, Except.map] at h
    | ok r =>
      simp only [hloc, Except.map, Except.ok.injEq] at h
      subst h
      exact locate_plain v follow linkLimit [] _ (fun _ h => absurd h List.not_mem_nil)
        (fun _ hs => Path.slash_not_mem_of_mem_parts hs) hloc

/-- An entry a path names, up to its last name, is a plain name in a directory of plain
names. -/
theorem parentWithin_entry_plain {v : Volume} {budget : Nat} {p : String} {dir : List String}
    {name : String} {slash : Bool} {left : Nat}
    (h : v.parentWithin budget p = .ok (.entry dir name slash, left)) :
    (∀ n ∈ dir, Path.Plain n) ∧ Path.Plain name := by
  unfold parentWithin at h
  split at h
  next names slashed hcomp =>
  -- the names of the path without empty ones: the last is the entry, the others lead to it
  have hnames : ∀ s ∈ names, s ≠ "" ∧ '/' ∉ s.toList := by
    intro s hs
    have hs' : s ∈ (Path.components p).1 := by rw [hcomp]; exact hs
    simp only [Path.components, List.mem_filter, decide_eq_true_eq] at hs'
    exact ⟨hs'.2, Path.slash_not_mem_of_mem_parts hs'.1⟩
  split at h
  · cases h
  · next last hlast =>
    split at h
    · cases h
    · next dir' left' hloc =>
      split at h
      · split at h
        · cases h
        split at h
        · cases h
        split at h
        · cases h
        split at h
        · cases h
        · next hsearch hdot hdots hlong =>
          have hmem := List.mem_of_getLast? hlast
          obtain ⟨⟨hdir, hname, -⟩, -⟩ : (dir' = dir ∧ last = name ∧ slashed = slash) ∧ left' = left := by
            simpa using h
          subst hdir hname
          refine ⟨locate_plain v true budget [] _ (fun _ h => absurd h List.not_mem_nil)
            (fun s hs => (hnames s (List.dropLast_subset _ hs)).2) hloc, ?_⟩
          exact ⟨(hnames _ hmem).1, hdot, hdots, (hnames _ hmem).2⟩
      · cases h
      · cases h

/-- An entry a path names, up to its last name, is a plain name in a directory of plain
names. -/
theorem parentOf_entry_plain {v : Volume} {p : String} {dir : List String} {name : String}
    {slash : Bool} (h : v.parentOf p = .ok (.entry dir name slash)) :
    (∀ n ∈ dir, Path.Plain n) ∧ Path.Plain name := by
  unfold parentOf at h
  split at h
  · cases h
  · cases hp : v.parentWithin linkLimit p with
    | error e => simp [hp, Except.map] at h
    | ok r =>
      simp only [hp, Except.map, Except.ok.injEq] at h
      obtain ⟨l, left⟩ := r
      simp only at h
      subst h
      exact parentWithin_entry_plain hp

theorem plain_snoc {dir : List String} {name : String} (hdir : ∀ n ∈ dir, Path.Plain n)
    (hname : Path.Plain name) : ∀ n ∈ dir ++ [name], Path.Plain n := by
  intro n hn
  rcases List.mem_append.mp hn with hn | hn
  · exact hdir n hn
  · exact List.mem_singleton.mp hn ▸ hname

/-- A volume as a file system shows one: every directory names each entry once, by a plain
name. -/
def Proper (v : Volume) : Prop :=
  v.top.Proper

instance : DecidablePred Proper := fun v =>
  inferInstanceAs (Decidable (v.top.distinct = true ∧ v.top.plainNames = true))

/-- A directory of a proper volume names each entry once, by a plain name. -/
theorem Proper.dir {v : Volume} (hv : v.Proper) {loc : List String} {m : Nat}
    {es : List (String × Node)} (hat : v.node? loc = some (.dir m es)) :
    (es.map Prod.fst).Nodup ∧ ∀ e ∈ es, Path.Plain e.1 := by
  obtain ⟨hnodup, hplain, -⟩ := Node.proper_dir_iff.mp (Node.proper_get? v.top loc hv hat)
  exact ⟨hnodup, hplain⟩

theorem Proper.update {v : Volume} (hv : v.Proper) {loc : List String} {x : Option Node}
    (hloc : ∀ s ∈ loc, Path.Plain s) (hx : ∀ n, x = some n → n.Proper) :
    (v.update loc fun _ => x).Proper :=
  Node.proper_update hx v.top loc hloc hv

theorem Proper.update_file {v : Volume} (hv : v.Proper) {loc : List String}
    (hloc : ∀ s ∈ loc, Path.Plain s) (inode m : Nat) (bytes : List UInt8) :
    (v.update loc fun _ => some (.file inode m bytes)).Proper :=
  hv.update hloc fun _ hn => Option.some.inj hn ▸ ⟨rfl, rfl⟩

theorem Proper.remove {v : Volume} (hv : v.Proper) {loc : List String}
    (hloc : ∀ s ∈ loc, Path.Plain s) : (v.update loc fun _ => none).Proper :=
  hv.update hloc fun _ hn => absurd hn (by simp)

/-! ## Every call keeps a volume proper -/

/-- Opening a path for writing keeps a volume proper: the file is made or truncated at an entry
the path names, after the links at its last name. -/
theorem Proper.writeFileAt {v v' : Volume} (hv : v.Proper) {p : String} {bytes : List UInt8}
    {mask mode : Nat} : ∀ {rounds budget : Nat} {q : String},
      v.writeFileAt p bytes mask mode rounds budget q = .ok v' → v'.Proper
  | 0, _, _, h => by simp [Volume.writeFileAt] at h
  | rounds + 1, budget, q, h => by
    simp only [Volume.writeFileAt] at h
    split at h
    · cases h
    · next dir name slash left hparent =>
      have hloc := plain_snoc (parentWithin_entry_plain hparent).1 (parentWithin_entry_plain hparent).2
      split at h
      · cases h
      split at h
      · split at h
        · cases h
          exact hv.update_file hloc _ _ _
        · cases h
      · split at h
        · cases h
          exact hv.update_file hloc _ _ _
        · cases h
      · cases h
      · cases h
      · split at h
        · cases h
        · exact hv.writeFileAt h
    · cases h

theorem Proper.writeFile {v v' : Volume} (hv : v.Proper) {mask : Nat} {p : String}
    {bytes : List UInt8} {mode : Nat} (h : v.writeFile mask p bytes mode = .ok v') : v'.Proper := by
  unfold Volume.writeFile at h
  split at h
  · cases h
  split at h
  · cases h
  · exact hv.writeFileAt h

/-- Setting the permission bits of a node keeps a volume proper. -/
theorem Proper.chmod {v v' : Volume} (hv : v.Proper) {p : String} {mode : Nat}
    (h : v.chmod p mode = .ok v') : v'.Proper := by
  unfold Volume.chmod at h
  split at h
  · cases h
  split at h
  · cases h
  · next loc hloc =>
    split at h
    · cases h
      exact hv.update_file (find_plain hloc) _ _ _
    · next m entries hat =>
      cases h
      refine hv.update (find_plain hloc) fun n hn => ?_
      cases hn
      exact Node.proper_dir_iff.mpr (Node.proper_dir_iff.mp (Node.proper_get? v.top loc hv hat))
    · cases h
      exact hv.update (find_plain hloc) fun n hn => Option.some.inj hn ▸ ⟨rfl, rfl⟩
    · cases h

/-- Moving a node keeps a volume proper: the node moved is proper, and both names are ones
lookups end at. -/
theorem Proper.rename {v v' : Volume} (hv : v.Proper) {src dst : String}
    (h : v.rename src dst = .ok v') : v'.Proper := by
  unfold Volume.rename at h
  split at h
  · cases h
  split at h
  · cases h
  split at h
  · cases h
  · cases h
  · next srcLoc dstLoc hsrc hdst =>
    cases hmoving : v.node? srcLoc with
    | none => simp [hmoving] at h
    | some moving =>
      have hplaced : ((v.update srcLoc fun _ => none).update dstLoc fun _ => some moving).Proper :=
        (hv.remove (find_plain hsrc)).update (find_plain hdst) fun n hn =>
          Option.some.inj hn ▸ Node.proper_get? v.top srcLoc hv hmoving
      simp only [hmoving] at h
      split at h
      · cases h
      split at h
      · cases h
        exact hv
      split at h <;> first | (cases h; exact hplaced) | cases h

/-- Removing an entry that is no directory keeps a volume proper. -/
theorem Proper.unlink {v v' : Volume} (hv : v.Proper) {p : String}
    (h : v.unlink p = .ok v') : v'.Proper := by
  unfold Volume.unlink at h
  split at h
  · cases h
  split at h
  · cases h
  · next dir name slash hparent =>
    have hloc := plain_snoc (parentOf_entry_plain hparent).1 (parentOf_entry_plain hparent).2
    cases hn : v.node? (dir ++ [name]) with
    | none => simp [hn] at h
    | some n =>
      simp only [hn] at h
      split at h
      · cases h
      split at h
      · cases h
      split at h
      · cases h
      · cases h
        exact hv.remove hloc
  · cases h

end Volume

namespace TextFile

/-- Giving up on a temporary file keeps a volume proper, whether or not it can be removed. -/
theorem abandon_proper {v : Volume} (hv : v.Proper) (temp : String) (f : SysFault) :
    (abandon v temp f).1.Proper := by
  unfold abandon
  split
  · exact hv
  · exact hv
  · split
    · next w hremoved => exact hv.unlink hremoved
    · exact hv

/-- Replacing the text of a file through a temporary file keeps a volume proper, whichever of
its calls fails. -/
theorem writeAtomic_proper (host : Host) {v : Volume} (hv : v.Proper) (serial : Nat)
    (p content : String) : (writeAtomic host v serial p content).1.Proper := by
  unfold writeAtomic
  split
  · exact hv
  dsimp only
  split
  · exact abandon_proper hv _ _
  next v1 hwritten =>
  have hv1 := hv.writeFile hwritten
  split
  · exact abandon_proper hv1 _ _
  next v2 hchmod =>
  have hv2 := hv1.chmod hchmod
  split
  · exact abandon_proper hv2 _ _
  next v3 hrenamed => exact hv2.rename hrenamed

end TextFile

end Reword
