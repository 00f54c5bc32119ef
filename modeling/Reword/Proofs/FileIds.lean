import Mathlib
import Reword.Proofs.ReportCounts
import Reword.Proofs.Canonical
/-!
# A file's identifier is its names below the root

A run names each file it reports by the relative path from the root to the file, both resolved
against the working directory (`Run.fileId`). A walk builds every path it gives by putting the
names of entries after the root (`Path.child`), one name per directory it goes down, and a file
system names its entries plainly. So every path a walk gives is its root joined with plain names
(`Walk.Rooted`, kept by every step on a proper volume, whatever the volume was between pulls),
and its identifier is those names joined by `/` (`Run.fileId_foldl_child`): the relative path
climbs out of nothing and descends through them (`Path.relative_ofNames_append`). Joining the
identifier to the root gives the path back (`Path.join_ofNames_intercalate`), and names joined by
`/` are read back from the text (`Path.intercalate_inj`), so no two paths of a walk share an
identifier.

**The law** (`Run.walked_file_ids_name_paths`): every path a walk gives, on volumes that may
change between pulls, is the resolved root joined with nonempty plain names, its identifier is
the names joined by `/`, and joining it to the root gives the path; the identifiers of the paths
of a walk are pairwise distinct; and the changed files a run reports are listed once each.
-/

namespace Reword

namespace Path

theorem isAbsolute_ofNames (ns : List String) : isAbsolute (ofNames ns) = true := by
  simp [isAbsolute, ofNames, String.startsWith_string_iff]

/-- Resolving a path gives the path of plain names. -/
theorem resolve_eq_ofNames (base p : String) :
    ∃ ds, (∀ n ∈ ds, Plain n) ∧ resolve base p = ofNames ds := by
  unfold resolve
  split
  · exact ⟨names p, plain_of_mem_names p, rfl⟩
  · exact ⟨_, plain_of_mem_normalize (plain_of_mem_names base)
      (fun _ hs => slash_not_mem_of_mem_parts hs), rfl⟩

/-- A path of plain names is resolved to itself. -/
theorem resolve_ofNames {ds : List String} (h : ∀ n ∈ ds, Plain n) (base : String) :
    resolve base (ofNames ds) = ofNames ds := by
  rw [resolve, if_pos (isAbsolute_ofNames ds), names_ofNames h]

/-- Putting plain names one after another after a path of plain names gives the path of all of
them. -/
theorem foldl_child_ofNames {ds ns : List String} (hds : ∀ n ∈ ds, Plain n)
    (hns : ∀ n ∈ ns, Plain n) : ns.foldl child (ofNames ds) = ofNames (ds ++ ns) := by
  induction ns generalizing ds with
  | nil => simp
  | cons n rest ih =>
    rw [List.foldl_cons, child_ofNames hds,
      ih (Volume.plain_snoc hds (hns n List.mem_cons_self))
        (fun m hm => hns m (List.mem_cons_of_mem n hm))]
    simp

theorem dropCommon_append (xs ys : List String) : dropCommon xs (xs ++ ys) = ([], ys) := by
  induction xs with
  | nil => cases ys <;> rfl
  | cons x rest ih => simp [dropCommon, ih]

/-- From a path of plain names to a path below it, the relative path is the names below it
joined by `/`. -/
theorem relative_ofNames_append {ds ns : List String} (hds : ∀ n ∈ ds, Plain n)
    (hns : ∀ n ∈ ns, Plain n) : relative (ofNames ds) (ofNames (ds ++ ns)) = "/".intercalate ns := by
  have hall : ∀ n ∈ ds ++ ns, Plain n := fun n hn =>
    (List.mem_append.mp hn).elim (hds n) (hns n)
  simp [relative, names_ofNames hds, names_ofNames hall, dropCommon_append]

theorem parts_append_slash_intercalate (dir : String) {ns : List String} (hne : ns ≠ [])
    (h : ∀ n ∈ ns, '/' ∉ n.toList) : parts (dir ++ "/" ++ "/".intercalate ns) = parts dir ++ ns := by
  have hsplit : (dir.toList ++ '/' :: ['/'].intercalate (ns.map String.toList)).splitOn '/' =
      dir.toList.splitOn '/' ++ ns.map String.toList := by
    rw [List.splitOn_append_cons_self,
      List.splitOn_intercalate '/' (by simpa using h) (by simpa using hne)]
  simp [parts, hsplit, Function.comp_def]

/-- Names joined by `/` end with no `/` when the last is plain. -/
theorem intercalate_endsWith_slash {ns : List String} (hne : ns ≠ []) (h : ∀ n ∈ ns, Plain n) :
    ("/".intercalate ns).endsWith "/" = false := by
  rw [Bool.eq_false_iff]
  intro hends
  have hsuffix : ['/'] <:+ ("/".intercalate ns).toList := by
    simpa [← String.endsWith_toSlice] using hends
  -- the path of the names then ends with a slash too, which its plain last name rules out
  have hpath : ['/'] <:+ (ofNames ns).toList := by
    rw [toList_ofNames]
    rw [String.toList_intercalate] at hsuffix
    exact hsuffix.trans (List.suffix_cons _ _)
  obtain ⟨front, last, rfl⟩ := (List.eq_nil_or_concat ns).resolve_left hne
  rw [List.concat_eq_append] at h hpath
  have hlast := @endsWith_ofNames front last (h last (by simp))
  rw [Bool.eq_false_iff] at hlast
  exact hlast (by simpa [← String.endsWith_toSlice] using hpath)

/-- Joining nonempty plain names, read as one relative path, to a path of plain names gives the
path of all of them. -/
theorem join_ofNames_intercalate {ds ns : List String} (hds : ∀ n ∈ ds, Plain n)
    (hns : ∀ n ∈ ns, Plain n) (hne : ns ≠ []) :
    join (ofNames ds) ("/".intercalate ns) = ofNames (ds ++ ns) := by
  have hnames : names (ofNames ds ++ "/" ++ "/".intercalate ns) = ds ++ ns := by
    rw [names, parts_append_slash_intercalate _ hne (fun n hn => (hns n hn).2.2.2),
      normalize_append, ← names, names_ofNames hds, normalize_of_plain hns]
  simp [join, hnames, intercalate_endsWith_slash hne hns]

/-- Plain names joined by `/` are read back from the text. -/
theorem intercalate_inj {ns ms : List String} (hns : ∀ n ∈ ns, Plain n)
    (hms : ∀ n ∈ ms, Plain n) (h : "/".intercalate ns = "/".intercalate ms) : ns = ms := by
  have hpaths : ofNames ns = ofNames ms := by rw [ofNames, ofNames, h]
  rw [← names_ofNames hns, ← names_ofNames hms, hpaths]

end Path

namespace Run

/-- The identifier of the root joined with plain names is the names joined by `/`; joining it to
the resolved root gives the path back when there is a name. -/
theorem fileId_foldl_child (host : Host) (root : String) {ns : List String}
    (hns : ∀ n ∈ ns, Path.Plain n) :
    fileId host root (ns.foldl Path.child (Path.resolve host.cwd root)) = "/".intercalate ns ∧
      (ns ≠ [] → Path.join (Path.resolve host.cwd root)
        (fileId host root (ns.foldl Path.child (Path.resolve host.cwd root))) =
          ns.foldl Path.child (Path.resolve host.cwd root)) := by
  obtain ⟨ds, hds, hroot⟩ := Path.resolve_eq_ofNames host.cwd root
  have hall : ∀ n ∈ ds ++ ns, Path.Plain n := fun n hn =>
    (List.mem_append.mp hn).elim (hds n) (hns n)
  have hid : fileId host root (ns.foldl Path.child (Path.resolve host.cwd root)) =
      "/".intercalate ns := by
    rw [fileId, hroot, Path.foldl_child_ofNames hds hns, Path.resolve_ofNames hall,
      Path.relative_ofNames_append hds hns]
  refine ⟨hid, fun hne => ?_⟩
  rw [hid, hroot, Path.join_ofNames_intercalate hds hns hne, Path.foldl_child_ofNames hds hns]

/-- Two paths reached from the root by plain names, with one identifier, are one path. -/
theorem fileId_foldl_child_inj (host : Host) (root : String) {ns ms : List String}
    (hns : ∀ n ∈ ns, Path.Plain n) (hms : ∀ n ∈ ms, Path.Plain n)
    (h : fileId host root (ns.foldl Path.child (Path.resolve host.cwd root)) =
      fileId host root (ms.foldl Path.child (Path.resolve host.cwd root))) :
    ns.foldl Path.child (Path.resolve host.cwd root) =
      ms.foldl Path.child (Path.resolve host.cwd root) := by
  rw [(fileId_foldl_child host root hns).1, (fileId_foldl_child host root hms).1] at h
  rw [Path.intercalate_inj hns hms h]

end Run

namespace Walk

/-- Where a walk from `root` stands: it is at that root, every frame is the root joined with
plain names, and every path it gave is the root joined with at least one plain name. -/
structure Rooted (root : String) (w : Walk) (given : List String) : Prop where
  at_root : w.root = root
  frames : ∀ f ∈ w.stack, ∃ ns : List String, (∀ n ∈ ns, Path.Plain n) ∧
    f.dir = ns.foldl Path.child root
  files : ∀ p ∈ given, ∃ ns : List String, ns ≠ [] ∧ (∀ n ∈ ns, Path.Plain n) ∧
    p = ns.foldl Path.child root

section Rooted

variable {root : String} {w : Walk} {given : List String}

theorem rooted_start (host : Host) (root extension : String) :
    Rooted (Path.resolve host.cwd root) (start host root extension) [] where
  at_root := rfl
  frames _ h := absurd h List.not_mem_nil
  files _ h := absurd h List.not_mem_nil

theorem Rooted.of_stack {w' : Walk} (h : Rooted root w given) (hroot : w'.root = w.root)
    (hstack : ∀ f ∈ w'.stack, f ∈ w.stack) : Rooted root w' given :=
  ⟨hroot.trans h.at_root, fun f hf => h.frames f (hstack f hf), h.files⟩

/-- Taking the next entry of the top frame leaves every frame where it was. -/
theorem Rooted.take {dir : String} {e : String × Kind} {rest : List (String × Kind)}
    {outer : List Frame} (h : Rooted root w given) (hstack : w.stack = ⟨dir, e :: rest⟩ :: outer) :
    Rooted root { w with stack := ⟨dir, rest⟩ :: outer } given := by
  refine ⟨h.at_root, fun f hf => ?_, h.files⟩
  rcases List.mem_cons.mp hf with rfl | hf
  · exact h.frames ⟨dir, e :: rest⟩ (hstack ▸ List.mem_cons_self)
  · exact h.frames f (hstack ▸ List.mem_cons_of_mem _ hf)

/-- Entering the root joined with plain names pushes, if anything, a frame of that path. -/
theorem Rooted.enter {v : Volume} {dir : String} (h : Rooted root w given) {ns : List String}
    (hns : ∀ n ∈ ns, Path.Plain n) (hdir : dir = ns.foldl Path.child root) :
    Rooted root (w.enter v dir).1 given := by
  have hroot := (enter_root w v dir).1
  rcases enter_cases w v dir with hw | ⟨f, -, -, hw⟩ | ⟨real, -, -, hw | ⟨entries, -, hw⟩⟩
  · rw [hw]
    exact h
  · -- a search that never ends leaves no frame
    exact h.of_stack hroot (by rw [hw]; exact fun g hg => absurd hg List.not_mem_nil)
  · exact h.of_stack hroot (by rw [hw]; exact fun f hf => hf)
  · refine ⟨hroot.trans h.at_root, fun f hf => ?_, h.files⟩
    rw [hw, List.mem_cons] at hf
    rcases hf with rfl | hf
    · exact ⟨ns, hns, hdir⟩
    · exact h.frames f hf

/-- Every step that goes on keeps a walk at its root with its frames below it. -/
theorem Rooted.step_next {v : Volume} {w' : Walk} {errors : List Diagnostic}
    (hstep : w.step v = .next w' errors) (ha : Apart w given) (h : Rooted root w given) :
    Rooted root w' given := by
  rcases step_next_cases hstep with ⟨hstart, rfl⟩ | ⟨-, dir, outer, hstack, rfl⟩ |
    ⟨-, dir, name, kind, rest, outer, hstack, rfl | ⟨-, rfl⟩⟩
  · -- the walk starts by entering its root, the root joined with no name
    have hstarted : Rooted root { w with started := true } given := h.of_stack rfl (fun f hf => hf)
    exact hstarted.enter (show ∀ n ∈ ([] : List String), Path.Plain n by simp)
      (by simpa using h.at_root)
  · exact h.of_stack rfl (fun f hf => hstack ▸ List.mem_cons_of_mem _ hf)
  · exact h.take hstack
  · -- the entry taken is a plain name below the top frame
    have htop : (⟨dir, (name, kind) :: rest⟩ : Frame) ∈ w.stack := hstack ▸ List.mem_cons_self
    obtain ⟨ns, hns, hdir⟩ := h.frames _ htop
    refine (h.take hstack).enter (Volume.plain_snoc hns (ha.plain _ htop _ List.mem_cons_self)) ?_
    rw [List.foldl_append, ← hdir]
    rfl

/-- A step that gives a file gives the root joined with the names of a frame and one more. -/
theorem Rooted.step_found {v : Volume} {w' : Walk} {path : String}
    (hstep : w.step v = .found path w') (ha : Apart w given) (h : Rooted root w given) :
    Rooted root w' (given ++ [path]) := by
  obtain ⟨-, dir, name, kind, rest, outer, hstack, -, rfl, rfl⟩ := step_found_cases hstep
  have htop : (⟨dir, (name, kind) :: rest⟩ : Frame) ∈ w.stack := hstack ▸ List.mem_cons_self
  obtain ⟨ns, hns, hdir⟩ := h.frames _ htop
  refine ⟨h.at_root, (h.take hstack).frames, fun p hp => ?_⟩
  rcases List.mem_append.mp hp with hp | hp
  · exact h.files p hp
  · rw [List.mem_singleton.mp hp]
    refine ⟨ns ++ [name], by simp, Volume.plain_snoc hns (ha.plain _ htop _ List.mem_cons_self), ?_⟩
    rw [List.foldl_append, ← hdir]
    rfl

/-- A pull on a proper volume keeps a walk apart from the files it gave and at its root, the file
it gives added. -/
theorem apart_rooted_pull {v : Volume} (hv : v.Proper) (h : Apart w given ∧ Rooted root w given) :
    Apart (w.pull v).walk (given ++ (w.pull v).next.toList) ∧
      Rooted root (w.pull v).walk (given ++ (w.pull v).next.toList) :=
  pull_preserves (fun w given => Apart w given ∧ Rooted root w given)
    (fun _ _ _ _ hstep h => ⟨h.1.step_next hv hstep, h.2.step_next hstep h.1⟩)
    (fun _ _ _ _ hstep h => ⟨h.1.step_found hstep, h.2.step_found hstep h.1⟩) h

end Rooted

/-- However the volumes change between pulls, as long as each is proper, every path a walk
gives is its resolved root joined with nonempty plain names. -/
theorem pulls_rooted (host : Host) (root extension : String) {vs : List Volume}
    (hvs : ∀ v ∈ vs, v.Proper) :
    ∀ p ∈ (pulls vs (start host root extension)).1, ∃ ns : List String, ns ≠ [] ∧
      (∀ n ∈ ns, Path.Plain n) ∧ p = ns.foldl Path.child (Path.resolve host.cwd root) := by
  have h := pulls_preserves Volume.Proper
    (fun w given => Apart w given ∧ Rooted (Path.resolve host.cwd root) w given)
    (fun _ _ _ hv h => apart_rooted_pull hv h) vs (start host root extension) [] hvs
    ⟨apart_of_stack_nil rfl, rooted_start host root extension⟩
  simpa using h.2.files

end Walk

namespace Run

/-- The outcome of a file carries the identifier it was given, when the file changed. -/
theorem substituteFile_changedId {host : Host} {v v' : Volume} {T : Table} {path id : String}
    {serial : Nat} {o : Outcome} (h : substituteFile host v T path id serial = .ok (v', o)) :
    ∀ x ∈ o.changedId?, x = id := by
  cases hread : TextFile.read v path with
  | error f =>
    rw [substituteFile_of_read_error hread] at h
    cases h
    simp [Outcome.changedId?]
  | ok text =>
    cases hfits : T.fits text with
    | false =>
      rw [(@substituteFile_eq_error_iff host v T path id serial .tooLong).mpr
        ⟨text, hread, .inl ⟨rfl, hfits⟩⟩] at h
      cases h
    | true =>
      by_cases hsame : T.apply text = text
      · rw [substituteFile_of_apply_eq hread hfits hsame] at h
        cases h
        simp [Outcome.changedId?]
      · rw [substituteFile_of_apply_ne hread hfits hsame] at h
        -- a failed write is no changed file, and a changed file carries the identifier
        rcases hw : TextFile.writeAtomic host v serial path (T.apply text) with ⟨v'', _ | _⟩ <;>
          rw [hw] at h <;> dsimp only at h
        · split at h <;> cases h
          simp [Outcome.changedId?]
        · cases h
          simp [Outcome.changedId?]

section Course

variable {host : Host} {s : Settings} {fuel : Nat} {v : Volume} {count : Nat} {w : Walk}
  {pulls : List (List Diagnostic × String)} {outcomes : List Outcome} {last : List Diagnostic}

/-- A course on proper volumes gives paths below the root of its walk. -/
theorem Course.rooted (h : Course host s fuel v count w pulls outcomes last) (hv : v.Proper)
    {root : String} {given : List String} (hw : Walk.Apart w given ∧ Walk.Rooted root w given) :
    ∀ p ∈ given ++ pulls.map Prod.snd, ∃ ns : List String, ns ≠ [] ∧
      (∀ n ∈ ns, Path.Plain n) ∧ p = ns.foldl Path.child root := by
  induction h generalizing given with
  | cut => simpa using hw.2.files
  | done => simpa using hw.2.files
  | @file _ v _ _ w path _ _ _ _ _ hnext hfile _ ih =>
    have hpull : Walk.Apart (w.pull v).walk (given ++ [path]) ∧
        Walk.Rooted root (w.pull v).walk (given ++ [path]) := by
      simpa [hnext] using Walk.apart_rooted_pull hv hw
    simpa using ih ((substituteFile_ok_outcome hfile).2.1 hv) hpull

/-- Every changed file of a course is listed by the identifier of its path. -/
theorem Course.changedIds (h : Course host s fuel v count w pulls outcomes last) :
    ∀ o ∈ outcomes, ∀ x ∈ o.changedId?, x = fileId host s.root o.path := by
  induction h with
  | cut => simp
  | done => simp
  | file _ _ hfile _ ih =>
    intro o ho
    rcases List.mem_cons.mp ho with rfl | ho
    · rw [(substituteFile_ok_outcome hfile).1]
      exact substituteFile_changedId hfile
    · exact ih o ho

end Course

/-- Values picked from a list, each the image of the element it is picked from, are distinct when
the images of all elements are. -/
theorem nodup_filterMap_of_image {α β : Type} {f : α → Option β} {g : α → β} {l : List α}
    (hfg : ∀ a ∈ l, ∀ b ∈ f a, b = g a) (h : (l.map g).Nodup) : (l.filterMap f).Nodup := by
  induction l with
  | nil => exact List.nodup_nil
  | cons a rest ih =>
    rw [List.map_cons, List.nodup_cons] at h
    have hrest := ih (fun a' ha' => hfg a' (List.mem_cons_of_mem a ha')) h.2
    cases hfa : f a with
    | none => simpa [List.filterMap_cons, hfa] using hrest
    | some b =>
      -- the value picked here is the image of `a`, which no later element has
      have hb : b = g a := hfg a List.mem_cons_self b hfa
      rw [List.filterMap_cons, hfa, List.nodup_cons]
      refine ⟨fun hmem => h.1 ?_, hrest⟩
      obtain ⟨a', ha', hfa'⟩ := List.mem_filterMap.mp hmem
      rw [← hb, hfg a' (List.mem_cons_of_mem a ha') b hfa']
      exact List.mem_map_of_mem ha'

/-- Every path a walk gives, however proper volumes change between pulls, is its resolved root
joined with nonempty plain names; its identifier is those names joined by `/`, and joining the
identifier to the root gives the path. No two paths of the walk share an identifier, and a run
on a proper volume reports each changed file once. -/
theorem walked_file_ids_name_paths (host : Host) (root extension : String) {vs : List Volume}
    (hvs : ∀ v ∈ vs, v.Proper) :
    (∀ p ∈ (Walk.pulls vs (Walk.start host root extension)).1,
      ∃ ns : List String, ns ≠ [] ∧ (∀ n ∈ ns, Path.Plain n) ∧
        p = ns.foldl Path.child (Path.resolve host.cwd root) ∧
        fileId host root p = "/".intercalate ns ∧
        Path.join (Path.resolve host.cwd root) (fileId host root p) = p) ∧
    (∀ p ∈ (Walk.pulls vs (Walk.start host root extension)).1,
      ∀ q ∈ (Walk.pulls vs (Walk.start host root extension)).1,
        fileId host root p = fileId host root q → p = q) ∧
    ∀ (v : Volume) (o : Options) (r : RunReport), v.Proper →
      (processFiles host v o).result = .ok r → r.updatedFiles.Nodup := by
  have hnames : ∀ p ∈ (Walk.pulls vs (Walk.start host root extension)).1,
      ∃ ns : List String, ns ≠ [] ∧ (∀ n ∈ ns, Path.Plain n) ∧
        p = ns.foldl Path.child (Path.resolve host.cwd root) ∧
        fileId host root p = "/".intercalate ns ∧
        Path.join (Path.resolve host.cwd root) (fileId host root p) = p := by
    intro p hp
    obtain ⟨ns, hne, hns, rfl⟩ := Walk.pulls_rooted host root extension hvs p hp
    obtain ⟨hid, hjoin⟩ := fileId_foldl_child host root hns
    exact ⟨ns, hne, hns, rfl, hid, hjoin hne⟩
  refine ⟨hnames, fun p hp q hq hpq => ?_, fun v o r hv hrun => ?_⟩
  · obtain ⟨ns, -, hns, rfl⟩ := Walk.pulls_rooted host root extension hvs p hp
    obtain ⟨ms, -, hms, rfl⟩ := Walk.pulls_rooted host root extension hvs q hq
    exact fileId_foldl_child_inj host root hns hms hpq
  · obtain ⟨s, pulls, outcomes, last, -, hcourse, rfl⟩ := processFiles_course hrun
    have hpaths := hcourse.paths
    have hnodup : (pulls.map Prod.snd).Nodup := by
      simpa using hcourse.nodup hv (@Walk.apart_of_stack_nil (Walk.start host s.root s.extension) rfl)
    have hrooted := hcourse.rooted hv
      ⟨Walk.apart_of_stack_nil rfl, Walk.rooted_start host s.root s.extension⟩
    -- two files of the course with one identifier have one name sequence, so one path
    have hinj : ∀ p ∈ pulls.map Prod.snd, ∀ q ∈ pulls.map Prod.snd,
        fileId host s.root p = fileId host s.root q → p = q := by
      intro p hp q hq hpq
      obtain ⟨ns, -, hns, rfl⟩ := hrooted p (by simpa using hp)
      obtain ⟨ms, -, hms, rfl⟩ := hrooted q (by simpa using hq)
      exact fileId_foldl_child_inj host s.root hns hms hpq
    have himages : (outcomes.map fun o => fileId host s.root o.path).Nodup := by
      simpa only [← hpaths, List.map_map, Function.comp_def] using hnodup.map_on hinj
    simp only [tally, List.nil_append]
    exact nodup_filterMap_of_image hcourse.changedIds himages

/-- A walk down two directories gives its one file, whose identifier is the two names below the
root, and no two of its paths share an identifier. -/
theorem nested_file_id_names_its_path :
    let host := Host.standard "/" 7
    let v : Volume := ⟨.dir 0o755 [("r", .dir 0o755 [("s", .dir 0o755 [("a.kt", .file 1 0o644 [])])])]⟩
    (∀ u ∈ [v, v], u.Proper) ∧
      (Walk.pulls [v, v] (Walk.start host "r" ".kt")).1 = ["/r/s/a.kt"] ∧
      fileId host "r" "/r/s/a.kt" = "s/a.kt" ∧
      ∀ p ∈ (Walk.pulls [v, v] (Walk.start host "r" ".kt")).1,
        ∀ q ∈ (Walk.pulls [v, v] (Walk.start host "r" ".kt")).1,
          fileId host "r" p = fileId host "r" q → p = q := by
  intro host v
  have hvs : ∀ u ∈ [v, v], u.Proper := by decide
  have hlaw := walked_file_ids_name_paths host "r" ".kt" hvs
  have hpulls : (Walk.pulls [v, v] (Walk.start host "r" ".kt")).1 = ["/r/s/a.kt"] := by
    decide +kernel
  have hid : fileId host "r" "/r/s/a.kt" = "s/a.kt" := by decide +kernel
  exact ⟨hvs, hpulls, hid, hlaw.2.1⟩

end Run

end Reword
