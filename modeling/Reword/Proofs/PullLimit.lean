import Mathlib
import Reword.Proofs.ReportCounts
import Reword.Proofs.AtomicReplace
import Reword.Proofs.SourceTree
/-!
# A run never runs out of pulls

A run pulls the files of its walk at most `Walk.pullLimit` times, the number of pulls
`Walk.all` is given on a volume that does not change. A run changes its volume between its
pulls, but only in place: a file's outcome leaves the volume as it was or puts a file where a
file or a special file stood (`TextFile.writeAtomic_cases`), so the volume keeps its locations
(`substituteFile_keeps_locations`) and every walk keeps its measure (`Walk.measure`). A pull that
gives a file lowers the measure, so the walk ends before the pulls do.

This needs the temporary files to be new: a write that found an entry at its temporary path
would move that entry or leave a file beside the one it replaces. So the volume holds no entry
of a temporary name (`Host.NoTemps`), and, since a write adds no location, keeps holding none.

**The law** (`processFiles_pullLimit_suffices`): on a well-formed volume with no entry of a
temporary name, a run goes as it would with any number of pulls from the limit on, whether it
ends with a report or stops. A run that ends with a report goes through a course that is its
course for every such number (`processFiles_course_beyond_limit`): it ends because its walk
ends, never because its pulls run out.
-/

namespace Reword

/-- No entry of a volume bears a name the host gives a temporary file, whatever the name it
replaces and its number. -/
def Host.NoTemps (host : Host) (v : Volume) : Prop :=
  ∀ loc ∈ v.locations, ∀ (ds : List String) (name : String) (serial : Nat),
    loc ≠ ds ++ [host.tempName name serial]

theorem Host.NoTemps.of_locations {host : Host} {v v' : Volume} (hno : host.NoTemps v)
    (h : v'.locations = v.locations) : host.NoTemps v' :=
  fun loc hloc => hno loc (h ▸ hloc)

namespace Walk

/-- The measure of a walk reads no more of a volume than its locations. -/
theorem measure_of_locations (w : Walk) {v v' : Volume} (h : v'.locations = v.locations) :
    w.measure v' = w.measure v := by
  have hcount : v'.nodeCount = v.nodeCount := by
    rw [← Volume.length_locations, ← Volume.length_locations, h]
  simp only [measure, fresh, h, hcount]

end Walk

namespace TextFile

variable {host : Host} {v : Volume}

/-- With no entry of a temporary name, nothing stands at a temporary path beside a canonical
path. -/
theorem lstat_tempPath_of_noTemps {p t : String} (htemp : host.PlainTemp)
    (hno : host.NoTemps v) (hreal : v.realpath p = .ok t) (serial : Nat) (n : Node) :
    v.lstat (tempPath host serial t) ≠ .ok n := by
  intro hn
  obtain ⟨real, rfl, hres⟩ := Volume.realpath_resolved hreal
  -- the temporary path is an entry of the directory holding the canonical path, named by the
  -- host, and a node found there stands at a location of that name
  rcases List.eq_nil_or_concat real with rfl | ⟨ds, name, rfl⟩
  · rw [tempPath_top] at hn
    have hat : v.node? [host.tempName "" serial] = some n :=
      (Volume.Resolved.lstat_snoc (Or.inl rfl) (htemp "" serial (by simp)) hn).2
    exact hno _ (Volume.mem_locations (by simp [hat])) [] "" serial rfl
  · rw [List.concat_eq_append] at hres hn
    rw [tempPath_ofNames host serial hres.plain] at hn
    have hplain : Path.Plain (host.tempName name serial) :=
      htemp name serial (hres.plain name (by simp)).2.2.2
    have hat := (hres.dropLast.lstat_snoc hplain hn).2
    exact hno _ (Volume.mem_locations (by simp [hat])) ds name serial rfl

/-- An atomic write on a well-formed volume with no entry of a temporary name keeps it
well-formed, at the same locations: it changes nothing, or puts a file where a leaf stood. -/
theorem writeAtomic_keeps_locations (hwf : v.WellFormed) (htemp : host.PlainTemp)
    (hno : host.NoTemps v) (serial : Nat) (p content : String) :
    (writeAtomic host v serial p content).1.WellFormed ∧
      (writeAtomic host v serial p content).1.locations = v.locations := by
  rcases writeAtomic_cases hwf htemp fun t hreal => lstat_tempPath_of_noTemps htemp hno hreal serial
    with ⟨f, h⟩ | ⟨loc, n, -, hat, hleaf, h⟩
  · rw [h]
    exact ⟨hwf, rfl⟩
  · rw [h]
    exact ⟨Volume.wellFormed_update_some hwf rfl,
      (Volume.locations_update_leaf hwf hat (Node.kind_ne_dir_of_leaf hleaf)
        (by simp [Node.kind])).1⟩

end TextFile

namespace Run

section Step

variable {host : Host} {s : Settings} {v v' : Volume} {count : Nat} {w : Walk} {path : String}
  {o : Outcome}

/-- A file's outcome keeps a well-formed volume with no entry of a temporary name so, at the
same locations. -/
theorem substituteFile_keeps_locations {T : Table} {id : String} {serial : Nat}
    (hwf : v.WellFormed) (htemp : host.PlainTemp) (hno : host.NoTemps v)
    (h : substituteFile host v T path id serial = .ok (v', o)) :
    v'.WellFormed ∧ host.NoTemps v' ∧ v'.locations = v.locations := by
  rcases substituteFile_volume h with rfl | ⟨text, rfl⟩
  · exact ⟨hwf, hno, rfl⟩
  · obtain ⟨hwf', hloc⟩ := TextFile.writeAtomic_keeps_locations hwf htemp hno serial path text
    exact ⟨hwf', hno.of_locations hloc, hloc⟩

/-- One step of a run: a pull that gives a file, and the file's outcome, leave a walk of smaller
measure on the volume the outcome leaves, which is as clean as the one before. -/
theorem measure_after_file (hwf : v.WellFormed) (htemp : host.PlainTemp) (hno : host.NoTemps v)
    (hnext : (w.pull v).next = some path)
    (hfile : substituteFile host v s.table path (fileId host s.root path) (count + 1) =
      .ok (v', o)) :
    v'.WellFormed ∧ host.NoTemps v' ∧ (w.pull v).walk.measure v' < w.measure v := by
  obtain ⟨hwf', hno', hloc⟩ := substituteFile_keeps_locations hwf htemp hno hfile
  refine ⟨hwf', hno', ?_⟩
  rw [Walk.measure_of_locations _ hloc]
  rcases Walk.pull_cases w v with ⟨hnone, -⟩ | ⟨-, hlt⟩
  · rw [hnext] at hnone
    cases hnone
  · exact hlt

end Step

variable {host : Host} {s : Settings}

/-- With more pulls than its walk's measure, a run goes the same way whatever the number of
pulls, to a report or to a stop. -/
theorem substituteAll_fuel (htemp : host.PlainTemp) :
    ∀ {fuel fuel' : Nat} {v : Volume} {count : Nat} {w : Walk} {r : RunReport}
      {logs : List LogLine}, v.WellFormed → host.NoTemps v → w.measure v < fuel →
      w.measure v < fuel' →
        substituteAll host s fuel v count w r logs = substituteAll host s fuel' v count w r logs
  | 0, _, _, _, _, _, _, _, _, h, _ => absurd h (Nat.not_lt_zero _)
  | _, 0, _, _, _, _, _, _, _, _, h' => absurd h' (Nat.not_lt_zero _)
  | fuel + 1, fuel' + 1, v, count, w, r, logs, hwf, hno, h, h' => by
    cases hend : (w.pull v).walk.endless with
    | some dir => rw [substituteAll_of_endless hend, substituteAll_of_endless hend]
    | none =>
    cases hnext : (w.pull v).next with
    | none => rw [substituteAll_of_next_none hend hnext, substituteAll_of_next_none hend hnext]
    | some path =>
      cases hfile : substituteFile host v s.table path (fileId host s.root path) (count + 1) with
      | error e =>
        rw [substituteAll_of_error hend hnext hfile, substituteAll_of_error hend hnext hfile]
      | ok next =>
        obtain ⟨v', o⟩ := next
        obtain ⟨hwf', hno', hlt⟩ := measure_after_file hwf htemp hno hnext hfile
        rw [substituteAll_of_ok hend hnext hfile, substituteAll_of_ok hend hnext hfile]
        exact substituteAll_fuel htemp hwf' hno' (by omega) (by omega)

/-- A course with more pulls than its walk's measure is its course with any number of pulls
above the measure: it never ends in `Course.cut`. -/
theorem Course.of_measure_lt (htemp : host.PlainTemp) {fuel : Nat} {v : Volume} {count : Nat}
    {w : Walk} {pulls : List (List Diagnostic × String)} {outcomes : List Outcome}
    {last : List Diagnostic} (hc : Course host s fuel v count w pulls outcomes last) :
    v.WellFormed → host.NoTemps v → w.measure v < fuel →
      ∀ fuel', w.measure v < fuel' → Course host s fuel' v count w pulls outcomes last := by
  -- on the course's steps, carrying a volume that keeps its locations
  induction hc with
  | cut => exact fun _ _ h => absurd h (Nat.not_lt_zero _)
  | done hend hnext =>
    intro _ _ _ fuel' h'
    obtain ⟨fuel', rfl⟩ : ∃ f, fuel' = f + 1 := ⟨fuel' - 1, by omega⟩
    exact .done hend hnext
  | file hend hnext hfile _ ih =>
    intro hwf hno h fuel' h'
    obtain ⟨fuel', rfl⟩ : ∃ f, fuel' = f + 1 := ⟨fuel' - 1, by omega⟩
    obtain ⟨hwf', hno', hlt⟩ := measure_after_file hwf htemp hno hnext hfile
    exact .file hend hnext hfile (ih hwf' hno' (by omega) fuel' (by omega))

variable {v : Volume} {o : Options}

/-- On a well-formed volume with no entry of a temporary name, a run goes as it would with any
number of pulls from the pull limit on, to a report or to a stop. -/
theorem processFiles_pullLimit_suffices (hwf : v.WellFormed) (htemp : host.PlainTemp)
    (hno : host.NoTemps v) {s : Settings} (hsettle : o.settle host v = .ok s)
    (hroot : checkRoot host v s.root = .ok ()) {fuel : Nat} (hfuel : Walk.pullLimit v ≤ fuel) :
    processFiles host v o =
      substituteAll host s fuel v host.tempsNamed (Walk.start host s.root s.extension)
        ⟨s.root, s.extension, 0, [], 0, []⟩ [] := by
  have hstart := Walk.measure_start_lt_pullLimit host s.root s.extension v
  rw [processFiles, hsettle]
  simp only [hroot]
  exact substituteAll_fuel htemp hwf hno hstart (by omega)

/-- On a well-formed volume with no entry of a temporary name, a run that ends with a report
goes through a course from its root that is its course for every number of pulls from the pull
limit on: the limit never cuts it short. -/
theorem processFiles_course_beyond_limit (hwf : v.WellFormed) (htemp : host.PlainTemp)
    (hno : host.NoTemps v) {r : RunReport} (hrun : (processFiles host v o).result = .ok r) :
    ∃ (s : Settings) (pulls : List (List Diagnostic × String)) (outcomes : List Outcome)
      (last : List Diagnostic),
      o.settle host v = .ok s ∧
      (∀ fuel, Walk.pullLimit v ≤ fuel →
        Course host s fuel v host.tempsNamed (Walk.start host s.root s.extension) pulls outcomes
          last) ∧
      r = tally ⟨s.root, s.extension, 0, [], 0, []⟩ pulls outcomes last := by
  obtain ⟨s, pulls, outcomes, last, hsettle, hcourse, rfl⟩ := processFiles_course hrun
  have hstart := Walk.measure_start_lt_pullLimit host s.root s.extension v
  exact ⟨s, pulls, outcomes, last, hsettle,
    fun fuel hfuel => hcourse.of_measure_lt htemp hwf hno hstart fuel (by omega), rfl⟩

end Run

end Reword
