import Mathlib
import Reword.Proofs.Batch
import Reword.Proofs.FileOutcome
import Reword.Proofs.WalkOnce
/-!
# What a run report counts

The text of a run report counts the changed files on its first line and, when a file failed,
the failed files on its last. It does not count failed outcomes: it counts the distinct paths
among its diagnostics of reading and writing. The two agree because of three facts of a run,
each proved along its course (`Run.Course`, the files a run goes through, one pull and one
outcome at a time):

* the walk gives no path twice, however the run's writes change the volume between its pulls
  (`Course.nodup`, from `Walk.Apart` and `TextFile.writeAtomic_proper`);
* a file that fails is reported at its own path, as a file that could not be read or written
  (`substituteFile_ok_outcome`);
* the walk's own diagnostics are of directories skipped, a category the count leaves out
  (`Course.walk_code`).

**The law** (`report_counts_changed_and_failed_files`): a run that ends with a report goes
through a course of files, each given once by its walk; the report lists the changed ones, and
its failed files are the failed ones, each once, so that its text is the count of changed files,
a line per changed file, and a last line with the count of failed files, there exactly when some
file failed.
-/

namespace Reword

namespace Outcome

/-- The file an outcome is of. -/
def path : Outcome → String
  | .changed p _ _ => p
  | .unchanged p _ => p
  | .failed p _ _ => p

/-- Whether a file failed. -/
def isFailed : Outcome → Bool
  | .failed .. => true
  | _ => false

end Outcome

namespace RunReport

/-- The lines of a report's text: the count of changed files, a line per changed file, and the
count of failed files when one failed. -/
def linesOf (updated : List String) (failed : Nat) : List String :=
  (("Updated " ++ toString updated.length ++ " files") :: updated.map ("  - " ++ ·)) ++
    (if failed = 0 then [] else ["Failed to process " ++ toString failed ++ " files"])

theorem textOf_eq_intercalate (updated : List String) (failed : Nat) :
    textOf updated failed = "\n".intercalate (linesOf updated failed) := rfl

theorem head_linesOf (updated : List String) (failed : Nat) :
    (linesOf updated failed).head? = some ("Updated " ++ toString updated.length ++ " files") :=
  rfl

/-- A report's line of failed files stands among its lines exactly when some file failed, and
it gives their count. -/
theorem failedLine_mem_linesOf (updated : List String) (failed n : Nat) :
    "Failed to process " ++ toString n ++ " files" ∈ linesOf updated failed ↔
      n = failed ∧ 0 < failed := by
  -- the other lines begin with another letter
  have hother : "Failed to process " ++ toString n ++ " files" ∉
      ("Updated " ++ toString updated.length ++ " files") :: updated.map ("  - " ++ ·) := by
    intro h
    rcases List.mem_cons.mp h with h | h
    · have hchars := congrArg String.toList h
      simp at hchars
    · obtain ⟨id, -, h⟩ := List.mem_map.mp h
      have hchars := congrArg String.toList h
      simp at hchars
  have hcount : "Failed to process " ++ toString n ++ " files" =
      "Failed to process " ++ toString failed ++ " files" ↔ n = failed := by
    simp [Nat.repr_inj]
  rw [linesOf, List.mem_append, or_iff_right hother]
  split
  · next hzero => simp [hzero]
  · next hzero =>
    rw [List.mem_singleton, hcount]
    exact ⟨fun h => ⟨h, Nat.pos_of_ne_zero hzero⟩, And.left⟩

end RunReport

/-- A list with no repeats is its own list of distinct members. -/
theorem eraseDups_of_nodup {α : Type} [BEq α] [LawfulBEq α] :
    ∀ {l : List α}, l.Nodup → l.eraseDups = l
  | [], _ => List.eraseDups_nil
  | a :: rest, h => by
    have hfresh : ∀ b ∈ rest, (!b == a) = true := by
      intro b hb
      have hne : b ≠ a := fun hba => (List.nodup_cons.mp h).1 (hba ▸ hb)
      simpa using hne
    rw [List.eraseDups_cons, List.filter_eq_self.mpr hfresh, eraseDups_of_nodup h.of_cons]

namespace Run

/-- What one file's outcome says of it: it is of the file's own path, a proper volume stays
proper, and a failure is reported at the file's path as a file that could not be read or
written. -/
theorem substituteFile_ok_outcome {host : Host} {v v' : Volume} {T : Table} {path id : String}
    {serial : Nat} {o : Outcome} (h : substituteFile host v T path id serial = .ok (v', o)) :
    o.path = path ∧ (v.Proper → v'.Proper) ∧
      ∀ d ∈ o.errors, d.filePath = some path ∧ (d.category = .read ∨ d.category = .write) := by
  -- the volume is the one given or the one the write left, proper either way
  have hproper : v.Proper → v'.Proper := by
    rcases substituteFile_volume h with rfl | ⟨text, rfl⟩
    · exact fun hv => hv
    · exact fun hv => TextFile.writeAtomic_proper host hv serial path text
  suffices ho : o.path = path ∧
      ∀ d ∈ o.errors, d.filePath = some path ∧ (d.category = .read ∨ d.category = .write) from
    ⟨ho.1, hproper, ho.2⟩
  cases hread : TextFile.read v path with
  | error f =>
    rw [substituteFile_of_read_error hread] at h
    cases h
    obtain ⟨hpath, -, hcode⟩ := @readDiagnostic_code host v path f hread
    refine ⟨rfl, fun d hd => ?_⟩
    rw [Outcome.errors, List.mem_singleton] at hd
    subst hd
    refine ⟨hpath, .inl ?_⟩
    rcases hcode with hcode | hcode <;> simp [Diagnostic.category, hcode, Code.category]
  | ok text =>
    cases hfits : T.fits text with
    | false =>
      have hstop := (@substituteFile_eq_error_iff host v T path id serial .tooLong).mpr
        ⟨text, hread, .inl ⟨rfl, hfits⟩⟩
      rw [hstop] at h
      cases h
    | true =>
      by_cases hsame : T.apply text = text
      · rw [substituteFile_of_apply_eq hread hfits hsame] at h
        cases h
        exact ⟨rfl, fun d hd => absurd hd List.not_mem_nil⟩
      · rw [substituteFile_of_apply_ne hread hfits hsame] at h
        rcases hw : TextFile.writeAtomic host v serial path (T.apply text) with ⟨v'', _ | _⟩ <;>
          rw [hw] at h <;> dsimp only at h
        · -- a write that fails, its search having ended, fails the file
          split at h
          · cases h
          · cases h
            refine ⟨rfl, fun d hd => ?_⟩
            rw [Outcome.errors, List.mem_singleton] at hd
            subst hd
            obtain ⟨hpath, hcode⟩ := writeDiagnostic_code path ‹SysFault›
            exact ⟨hpath, .inr (by simp [Diagnostic.category, hcode, Code.category])⟩
        · cases h
          exact ⟨rfl, fun d hd => absurd hd List.not_mem_nil⟩

/-- The course of a run with `fuel` pulls left, from a volume, `count` temporary files named and
a walk: the pulls it makes, each returning, with the diagnostics its walk met on the way and
the file it gave, the outcome of each file on the volume the files before it left, and the
diagnostics met after the last file. -/
inductive Course (host : Host) (s : Settings) :
    Nat → Volume → Nat → Walk → List (List Diagnostic × String) → List Outcome →
      List Diagnostic → Prop where
  /-- A run with no pulls left stops. -/
  | cut (v : Volume) (count : Nat) (w : Walk) : Course host s 0 v count w [] [] []
  /-- A walk that gives no file ends the run. -/
  | done {fuel : Nat} {v : Volume} {count : Nat} {w : Walk} :
      (w.pull v).walk.endless = none → (w.pull v).next = none →
      Course host s (fuel + 1) v count w [] [] (w.pull v).errors
  /-- A file the walk gives has its outcome, and the run goes on from the volume it leaves. -/
  | file {fuel : Nat} {v v' : Volume} {count : Nat} {w : Walk} {path : String} {o : Outcome}
      {pulls : List (List Diagnostic × String)} {outcomes : List Outcome}
      {last : List Diagnostic} :
      (w.pull v).walk.endless = none → (w.pull v).next = some path →
      substituteFile host v s.table path (fileId host s.root path) (count + 1) = .ok (v', o) →
      Course host s fuel v' (named v path count o) (w.pull v).walk pulls outcomes last →
      Course host s (fuel + 1) v count w (((w.pull v).errors, path) :: pulls) (o :: outcomes)
        last

/-- A run that ends with a report goes through a course, and its report tallies it. -/
theorem substituteAll_course {host : Host} {s : Settings} :
    ∀ {fuel : Nat} {v : Volume} {count : Nat} {w : Walk} {r r' : RunReport}
      {logs : List LogLine},
      (substituteAll host s fuel v count w r logs).result = .ok r' →
      ∃ pulls outcomes last, Course host s fuel v count w pulls outcomes last ∧
        r' = tally r pulls outcomes last
  | 0, v, count, w, r, r', logs, h => by
    simp only [substituteAll, Except.ok.injEq] at h
    subst h
    exact ⟨[], [], [], .cut v count w, by simp [tally_nil]⟩
  | fuel + 1, v, count, w, r, r', logs, h => by
    -- a pull that never returns gives no report
    cases hend : (w.pull v).walk.endless with
    | some dir =>
      rw [substituteAll_of_endless hend] at h
      cases h
    | none =>
    cases hnext : (w.pull v).next with
    | none =>
      rw [substituteAll_of_next_none hend hnext, Except.ok.injEq] at h
      subst h
      exact ⟨[], [], _, .done hend hnext, (tally_nil r _).symm⟩
    | some path =>
      cases hfile : substituteFile host v s.table path (fileId host s.root path) (count + 1) with
      | error e =>
        rw [substituteAll_of_error hend hnext hfile] at h
        cases h
      | ok next =>
        obtain ⟨v', o⟩ := next
        rw [substituteAll_of_ok hend hnext hfile] at h
        obtain ⟨pulls, outcomes, last, hcourse, rfl⟩ := substituteAll_course h
        exact ⟨_, _, last, .file hend hnext hfile hcourse,
          tally_record r _ path _ o pulls outcomes last⟩

section Course

variable {host : Host} {s : Settings} {fuel : Nat} {v : Volume} {count : Nat} {w : Walk}
  {pulls : List (List Diagnostic × String)} {outcomes : List Outcome} {last : List Diagnostic}

/-- Each outcome of a course is of the file its pull gave. -/
theorem Course.paths (h : Course host s fuel v count w pulls outcomes last) :
    outcomes.map Outcome.path = pulls.map Prod.snd := by
  induction h with
  | cut => rfl
  | done => rfl
  | file _ _ hfile _ ih =>
    rw [List.map_cons, List.map_cons, (substituteFile_ok_outcome hfile).1, ih]

/-- Every diagnostic a course's walk meets is of a directory skipped. -/
theorem Course.walk_code (h : Course host s fuel v count w pulls outcomes last) :
    (∀ pull ∈ pulls, ∀ d ∈ pull.1, d.code = .directorySkipped) ∧
      ∀ d ∈ last, d.code = .directorySkipped := by
  induction h with
  | cut => simp
  | done => exact ⟨fun _ h => absurd h List.not_mem_nil, Walk.pull_code _ _⟩
  | @file _ v _ _ w _ _ _ _ _ _ _ _ _ ih =>
    refine ⟨fun pull hpull => ?_, ih.2⟩
    rcases List.mem_cons.mp hpull with rfl | hpull
    · exact Walk.pull_code w v
    · exact ih.1 pull hpull

/-- Every failure of a course is reported at the path of its file, as a file that could not be
read or written. -/
theorem Course.failures (h : Course host s fuel v count w pulls outcomes last) :
    ∀ o ∈ outcomes, ∀ d ∈ o.errors,
      d.filePath = some o.path ∧ (d.category = .read ∨ d.category = .write) := by
  induction h with
  | cut => simp
  | done => simp
  | file _ _ hfile _ ih =>
    intro o ho
    rcases List.mem_cons.mp ho with rfl | ho
    · obtain ⟨hpath, -, herrors⟩ := substituteFile_ok_outcome hfile
      rw [hpath]
      exact herrors
    · exact ih o ho

/-- A course on proper volumes gives no file twice, nor one its walk gave before: each volume
the run leaves is proper, so the walk stays apart from the files it gave. -/
theorem Course.nodup (h : Course host s fuel v count w pulls outcomes last) (hv : v.Proper)
    {given : List String} (hw : Walk.Apart w given) : (given ++ pulls.map Prod.snd).Nodup := by
  induction h generalizing given with
  | cut => simpa using hw.given_nodup
  | done => simpa using hw.given_nodup
  | @file _ v _ _ w path _ _ _ _ _ hnext hfile _ ih =>
    have hapart : Walk.Apart (w.pull v).walk (given ++ [path]) := by
      simpa [hnext] using hw.pull hv
    have hrest := ih ((substituteFile_ok_outcome hfile).2.1 hv) hapart
    simpa using hrest

end Course

/-- The errors of a batch, one file after another. -/
theorem batchErrors_cons (errs : List Diagnostic) (path : String)
    (pulls : List (List Diagnostic × String)) (o : Outcome) (outcomes : List Outcome)
    (last : List Diagnostic) :
    batchErrors ((errs, path) :: pulls) (o :: outcomes) last =
      errs ++ o.errors ++ batchErrors pulls outcomes last := by
  simp [batchErrors]

/-- The walk's diagnostics are not counted: a directory skipped is neither read nor written. -/
theorem skipped_not_counted {ds : List Diagnostic} (h : ∀ d ∈ ds, d.code = .directorySkipped) :
    (ds.map Record.coded).filter
      (fun r => r.category? = some .read ∨ r.category? = some .write) = [] := by
  rw [List.filter_eq_nil_iff]
  intro r hr
  obtain ⟨d, hd, rfl⟩ := List.mem_map.mp hr
  simp [Record.category?, Diagnostic.category, h d hd, Code.category]

/-- Among the errors of a batch, those of files that could not be read or written are the
failures of its files, each at its file's path: the walk's diagnostics are of directories
skipped, which are neither. -/
theorem counted_batchErrors :
    ∀ (pulls : List (List Diagnostic × String)) (outcomes : List Outcome) (last : List Diagnostic),
      pulls.length = outcomes.length →
      (∀ pull ∈ pulls, ∀ d ∈ pull.1, d.code = .directorySkipped) →
      (∀ d ∈ last, d.code = .directorySkipped) →
      (∀ o ∈ outcomes, ∀ d ∈ o.errors,
        d.filePath = some o.path ∧ (d.category = .read ∨ d.category = .write)) →
      (((batchErrors pulls outcomes last).map Record.coded).filter
          (fun r => r.category? = some .read ∨ r.category? = some .write)).map Record.filePath =
        (outcomes.filter Outcome.isFailed).map (some ∘ Outcome.path)
  | [], [], last, _, _, hlast, _ => by
    have hnone : batchErrors [] [] last = last := by simp [batchErrors]
    rw [hnone, skipped_not_counted hlast]
    rfl
  | (errs, path) :: pulls, o :: outcomes, last, hlen, hwalk, hlast, hfailed => by
    have hrest := counted_batchErrors pulls outcomes last (by simpa using hlen)
      (fun pull hpull => hwalk pull (List.mem_cons_of_mem _ hpull)) hlast
      (fun o' ho' => hfailed o' (List.mem_cons_of_mem _ ho'))
    have hwalked := skipped_not_counted (hwalk _ List.mem_cons_self)
    rw [batchErrors_cons, List.map_append, List.map_append, List.filter_append,
      List.filter_append, hwalked, List.nil_append, List.map_append, hrest]
    -- the file's own failure, if it failed, is counted at its path
    cases o with
    | failed p id d =>
      obtain ⟨hpath, hcategory⟩ := hfailed _ List.mem_cons_self d (by simp [Outcome.errors])
      simp [Outcome.errors, Outcome.isFailed, Outcome.path, Record.category?, Record.filePath,
        List.filter_cons, hpath, hcategory]
    | changed p id n => simp [Outcome.errors, Outcome.isFailed]
    | unchanged p id => simp [Outcome.errors, Outcome.isFailed]
  | [], _ :: _, _, hlen, _, _, _ => absurd hlen (by simp)
  | _ :: _, [], _, hlen, _, _, _ => absurd hlen (by simp)

/-- A run that ends with a report settled its options and went through a course of files from
its root, and the report is that course tallied. -/
theorem processFiles_course {host : Host} {v : Volume} {o : Options} {r : RunReport}
    (hrun : (processFiles host v o).result = .ok r) :
    ∃ (s : Settings) (pulls : List (List Diagnostic × String)) (outcomes : List Outcome)
      (last : List Diagnostic),
      o.settle host v = .ok s ∧
      Course host s (Walk.pullLimit v) v host.tempsNamed (Walk.start host s.root s.extension) pulls
        outcomes last ∧
      r = tally ⟨s.root, s.extension, 0, [], 0, []⟩ pulls outcomes last := by
  -- the run is one over the walk from the root, once the options settle and the root is read
  unfold processFiles at hrun
  split at hrun
  · cases hrun
  · next s hsettle =>
    split at hrun
    · cases hrun
    · obtain ⟨pulls, outcomes, last, hcourse, rfl⟩ := substituteAll_course hrun
      exact ⟨s, pulls, outcomes, last, hsettle, hcourse, rfl⟩

/-- A run that ends with a report goes through a course of files, each given once by its walk,
however the run's writes change the volume: the report lists the changed files in order and
keeps every diagnostic, and the files it counts as failed are the failed files, each once at
its path, and none of the walk's directories skipped. Its text is then the count of changed
files, a line per changed file, and a line with the count of failed files, which stands among
its lines exactly when some file failed. -/
theorem report_counts_changed_and_failed_files {host : Host} {v : Volume} {o : Options}
    {r : RunReport} (hv : v.Proper) (hrun : (processFiles host v o).result = .ok r) :
    ∃ (s : Settings) (pulls : List (List Diagnostic × String)) (outcomes : List Outcome)
      (last : List Diagnostic),
      o.settle host v = .ok s ∧
      Course host s (Walk.pullLimit v) v host.tempsNamed (Walk.start host s.root s.extension) pulls
        outcomes last ∧
      (pulls.map Prod.snd).Nodup ∧ outcomes.map Outcome.path = pulls.map Prod.snd ∧
      (∀ pull ∈ pulls, ∀ d ∈ pull.1, d.code = .directorySkipped) ∧
      (∀ d ∈ last, d.code = .directorySkipped) ∧
      r.errors = batchErrors pulls outcomes last ∧
      r.updatedFiles = outcomes.filterMap Outcome.changedId? ∧
      r.failedFiles = (outcomes.filter Outcome.isFailed).map (some ∘ Outcome.path) ∧
      r.text = "\n".intercalate
        (RunReport.linesOf r.updatedFiles (outcomes.filter Outcome.isFailed).length) ∧
      (RunReport.linesOf r.updatedFiles (outcomes.filter Outcome.isFailed).length).head? =
        some ("Updated " ++ toString (outcomes.filterMap Outcome.changedId?).length ++ " files") ∧
      ∀ n, "Failed to process " ++ toString n ++ " files" ∈
          RunReport.linesOf r.updatedFiles (outcomes.filter Outcome.isFailed).length ↔
        n = (outcomes.filter Outcome.isFailed).length ∧ ∃ out ∈ outcomes, out.isFailed = true := by
  obtain ⟨s, pulls, outcomes, last, hsettle, hcourse, rfl⟩ := processFiles_course hrun
  have hpaths := hcourse.paths
  have hnodup : (pulls.map Prod.snd).Nodup := by
    simpa using hcourse.nodup hv (@Walk.apart_of_stack_nil (Walk.start host s.root s.extension) rfl)
  obtain ⟨hwalk, hlast⟩ := hcourse.walk_code
  have hlen : pulls.length = outcomes.length := by
    simpa using (congrArg List.length hpaths).symm
  -- the failed files are among the files given, so they too are given once
  have hfailedNodup : ((outcomes.filter Outcome.isFailed).map (some ∘ Outcome.path)).Nodup := by
    rw [← List.map_map]
    refine List.Nodup.map (Option.some_injective _) ?_
    exact (List.filter_sublist.map Outcome.path).nodup (hpaths ▸ hnodup)
  have hfailed : (tally ⟨s.root, s.extension, 0, [], 0, []⟩ pulls outcomes last).failedFiles =
      (outcomes.filter Outcome.isFailed).map (some ∘ Outcome.path) := by
    simp only [RunReport.failedFiles, RunReport.failedAmong, tally, List.nil_append]
    rw [counted_batchErrors pulls outcomes last hlen hwalk hlast hcourse.failures,
      eraseDups_of_nodup hfailedNodup]
  have hupdated : (tally ⟨s.root, s.extension, 0, [], 0, []⟩ pulls outcomes last).updatedFiles =
      outcomes.filterMap Outcome.changedId? := by
    simp [tally]
  refine ⟨s, pulls, outcomes, last, hsettle, hcourse, hnodup, hpaths, hwalk, hlast,
    by simp [tally], hupdated, hfailed, ?_, ?_, fun n => ?_⟩
  · rw [RunReport.text, hfailed, List.length_map, RunReport.textOf_eq_intercalate]
  · rw [RunReport.head_linesOf, hupdated]
  · rw [RunReport.failedLine_mem_linesOf, List.length_pos_iff_exists_mem]
    simp

/-- A run over one file that is not UTF-8 ends with a report of that file failed once, whose
text counts no changed file and one failed file. -/
theorem report_counts_one_undecodable_file :
    let host := Host.standard "/" 7
    let T : Table := ⟨[⟨"q", "r"⟩], by decide, by decide⟩
    let v : Volume := ⟨.dir 0o755 [("r", .dir 0o755 [("a.kt", .file 1 0o644 [255])])]⟩
    let o : Options := { root := some "r", rules := some (.table T) }
    let r : RunReport := ⟨"/r", ".kt", 1, [], 0, [readDiagnostic host "/r/a.kt" .undecodable]⟩
    v.Proper ∧ (processFiles host v o).result = .ok r ∧
      r.text = "Updated 0 files\nFailed to process 1 files" ∧
      ∃ (s : Settings) (pulls : List (List Diagnostic × String)) (outcomes : List Outcome)
        (last : List Diagnostic),
        o.settle host v = .ok s ∧
        Course host s (Walk.pullLimit v) v host.tempsNamed (Walk.start host s.root s.extension)
          pulls outcomes last ∧
        (pulls.map Prod.snd).Nodup ∧ outcomes.map Outcome.path = pulls.map Prod.snd ∧
        (∀ pull ∈ pulls, ∀ d ∈ pull.1, d.code = .directorySkipped) ∧
        (∀ d ∈ last, d.code = .directorySkipped) ∧
        r.errors = batchErrors pulls outcomes last ∧
        r.updatedFiles = outcomes.filterMap Outcome.changedId? ∧
        r.failedFiles = (outcomes.filter Outcome.isFailed).map (some ∘ Outcome.path) ∧
        r.text = "\n".intercalate
          (RunReport.linesOf r.updatedFiles (outcomes.filter Outcome.isFailed).length) ∧
        (RunReport.linesOf r.updatedFiles (outcomes.filter Outcome.isFailed).length).head? =
          some ("Updated " ++ toString (outcomes.filterMap Outcome.changedId?).length ++
            " files") ∧
        ∀ n, "Failed to process " ++ toString n ++ " files" ∈
            RunReport.linesOf r.updatedFiles (outcomes.filter Outcome.isFailed).length ↔
          n = (outcomes.filter Outcome.isFailed).length ∧
            ∃ out ∈ outcomes, out.isFailed = true := by
  intro host T v o r
  have hv : v.Proper := by decide
  have hrun : (processFiles host v o).result = .ok r := by decide +kernel
  exact ⟨hv, hrun, by decide +kernel, report_counts_changed_and_failed_files hv hrun⟩

end Run

end Reword
