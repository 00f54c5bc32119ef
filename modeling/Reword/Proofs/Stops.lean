import Mathlib
import Reword.Run
/-!
# What stops a run

A run records each failure it meets on one file or one directory and goes on. Three faults
stop it before it has touched anything, all fatal: options that cannot be used (`CONFIG001`), a
rules file that cannot be loaded (`CONFIG002`) and a root that is not a directory it can list
(`ROOT001`). Asking the process for its working directory is not guarded either, and fails once
that directory has been removed, again before anything is touched. Applying the table is not
guarded, so a file whose rewrite would be longer than a string may be stops the run with the
engine's refusal, and the files written before it stay written. And a canonical path search
that never ends, of a directory the walk enters or of a file being written, means the run never
returns: only such a search fails as `endless` (`TextFile.writeAtomic_endless`,
`Walk.pull_endless`), every other call returning.

**The law** (`processFiles_stops_only_when_fatal_or_unguarded`): a run that stops either raises
one of the three fatal diagnostics, having changed and logged nothing; or fails to find its
working directory, removed, with no working directory of its own to use, having changed and
logged nothing; or stops with the engine's refusal while a file holds a text that the table
cannot be applied to (`Table.fits`); or never returns, a canonical path search on the volume it
stands in never ending. The friendly form of a run gives nothing exactly when the run never
returns, and otherwise gives no report exactly when the run stopped, and then the diagnostic of
the stop as its only error.

A file stops the run exactly when its text does not fit, or when the search for the canonical
path of a file it changes never ends (`substituteFile_eq_error_iff`).
-/

namespace Reword

@[simp] theorem Diagnostic.code_make (code : Code) (params : List String) (filePath : Option String)
    (cause : Option Cause) : (Diagnostic.make code params filePath cause).code = code := rfl

/-! ## Calls that return -/

namespace Volume

theorem locateWith_ne_endless {v : Volume} {follow : Bool} {budget : Nat}
    {next : List String → List String → Except Errno (List String × Nat)}
    (hnext : ∀ d t, next d t ≠ .error .endless) :
    ∀ (done todo : List String), v.locateWith follow budget next done todo ≠ .error .endless
  | done, [] => by simp [locateWith]
  | done, part :: rest => by
    have ih : ∀ d, v.locateWith follow budget next d rest ≠ .error .endless :=
      fun d => locateWith_ne_endless hnext d rest
    rw [locateWith]
    split
    · exact ih done
    split
    · exact ih _
    split
    · next here m entries =>
      split
      · simp
      split
      · simp
      split
      · split <;> simp
      · split
        · simp
        · exact hnext _ _
      · exact ih _
      · split <;> simp
      · split <;> simp
    · simp

theorem locate_ne_endless (v : Volume) (follow : Bool) :
    ∀ (budget : Nat) (done todo : List String), v.locate follow budget done todo ≠ .error .endless
  | 0, done, todo => locateWith_ne_endless (fun _ _ => by simp) done todo
  | b + 1, done, todo => locateWith_ne_endless (fun d t => locate_ne_endless v follow b d t) done todo

theorem find_ne_endless {v : Volume} {p : String} {follow : Bool} {e : Errno}
    (h : v.find p follow = .error e) : e ≠ .endless := by
  rintro rfl
  unfold find at h
  split at h
  · cases h
  · cases hl : v.locate follow linkLimit [] (Path.parts p) with
    | error e' =>
      rw [hl] at h
      cases h
      exact locate_ne_endless v follow _ _ _ hl
    | ok r => simp [hl, Except.map] at h

theorem nulIn?_errno {call argument p : String} {f : SysFault}
    (h : SysFault.nulIn? call argument p = some f) : f.errno ≠ .endless := by
  unfold SysFault.nulIn? at h
  split at h
  · cases h
    simp
  · cases h

theorem lookup_ne_endless {v : Volume} {call p : String} {follow : Bool} {f : SysFault}
    (h : v.lookup call p follow = .error f) : f.errno ≠ .endless := by
  unfold lookup at h
  cases hnul : SysFault.nulIn? call "path" p with
  | some g =>
    simp only [hnul, Except.error.injEq] at h
    exact h ▸ nulIn?_errno hnul
  | none =>
    simp only [hnul] at h
    cases hf : v.find p follow with
    | error e =>
      simp only [hf, Except.error.injEq] at h
      exact h ▸ find_ne_endless hf
    | ok loc =>
      simp only [hf] at h
      split at h
      · cases h
      · cases h
        simp

theorem parentWithin_ne_endless {v : Volume} {budget : Nat} {p : String} {e : Errno}
    (h : v.parentWithin budget p = .error e) : e ≠ .endless := by
  unfold parentWithin at h
  dsimp only at h
  split at h
  · cases h
  · split at h
    · next e' hl =>
      cases h
      rintro rfl
      exact locate_ne_endless v true _ _ _ hl
    · split at h
      · split at h
        · cases h; simp
        · split at h
          · cases h
          · split at h
            · cases h
            · split at h
              · cases h; simp
              · cases h
      · cases h; simp
      · cases h; simp

theorem writeFileAt_ne_endless {v : Volume} {p : String} {bytes : List UInt8} {mask mode : Nat}
    {rounds budget : Nat} {q : String} {f : SysFault}
    (h : v.writeFileAt p bytes mask mode rounds budget q = .error f) : f.errno ≠ .endless := by
  fun_induction v.writeFileAt p bytes mask mode rounds budget q with
  | case2 _ _ _ _ e hparent =>
    cases h
    simpa +zetaDelta using parentWithin_ne_endless hparent
  | case4 | case6 => cases h
  | case11 _ _ _ _ _ _ _ _ _ _ _ _ ih => exact ih h
  | _ =>
    cases h
    simp +zetaDelta

theorem writeFile_ne_endless {v : Volume} {mask : Nat} {p : String} {bytes : List UInt8}
    {mode : Nat} {f : SysFault} (h : v.writeFile mask p bytes mode = .error f) :
    f.errno ≠ .endless := by
  unfold writeFile at h
  cases hnul : SysFault.nulIn? "open" "path" p with
  | some g =>
    simp only [hnul, Except.error.injEq] at h
    exact h ▸ nulIn?_errno hnul
  | none =>
    simp only [hnul] at h
    split at h
    · cases h
      simp
    · exact writeFileAt_ne_endless h

theorem chmod_ne_endless {v : Volume} {p : String} {mode : Nat} {f : SysFault}
    (h : v.chmod p mode = .error f) : f.errno ≠ .endless := by
  unfold chmod at h
  cases hnul : SysFault.nulIn? "chmod" "path" p with
  | some g =>
    simp only [hnul, Except.error.injEq] at h
    exact h ▸ nulIn?_errno hnul
  | none =>
    simp only [hnul] at h
    cases hf : v.find p true with
    | error e =>
      simp only [hf, Except.error.injEq] at h
      exact h ▸ find_ne_endless hf
    | ok loc =>
      simp only [hf] at h
      -- only a node that is none of a file, a directory or a special file fails
      split at h
      · cases h
      · cases h
      · cases h
      · cases h
        simp

theorem rename_ne_endless {v : Volume} {src dst : String} {f : SysFault}
    (h : v.rename src dst = .error f) : f.errno ≠ .endless := by
  unfold rename at h
  cases hnul : SysFault.nulIn? "rename" "oldPath" src with
  | some g =>
    simp only [hnul, Except.error.injEq] at h
    exact h ▸ nulIn?_errno hnul
  | none =>
    cases hnul' : SysFault.nulIn? "rename" "newPath" dst with
    | some g =>
      simp only [hnul, hnul', Except.error.injEq] at h
      exact h ▸ nulIn?_errno hnul'
    | none =>
      simp only [hnul, hnul'] at h
      cases hs : v.find src false with
      | error e =>
        simp only [hs, Except.error.injEq] at h
        exact h ▸ find_ne_endless hs
      | ok srcLoc =>
        cases hd : v.find dst false with
        | error e =>
          simp only [hs, hd, Except.error.injEq] at h
          exact h ▸ find_ne_endless hd
        | ok dstLoc =>
          -- past the lookups every failure is one the call itself reports
          simp only [hs, hd] at h
          repeat' split at h
          all_goals cases h <;> simp

theorem parentOf_ne_endless {v : Volume} {p : String} {e : Errno} (h : v.parentOf p = .error e) :
    e ≠ .endless := by
  unfold parentOf at h
  split at h
  · cases h
    simp
  · cases hp : v.parentWithin linkLimit p with
    | error e' =>
      simp only [hp, Except.map, Except.error.injEq] at h
      exact h ▸ parentWithin_ne_endless hp
    | ok r => simp [hp, Except.map] at h

theorem unlink_ne_endless {v : Volume} {p : String} {f : SysFault} (h : v.unlink p = .error f) :
    f.errno ≠ .endless := by
  unfold unlink at h
  cases hnul : SysFault.nulIn? "unlink" "path" p with
  | some g =>
    simp only [hnul, Except.error.injEq] at h
    exact h ▸ nulIn?_errno hnul
  | none =>
    simp only [hnul] at h
    cases hp : v.parentOf p with
    | error e =>
      simp only [hp, Except.error.injEq] at h
      exact h ▸ parentOf_ne_endless hp
    | ok last =>
      cases last with
      | entry dir name slash =>
        simp only [hp] at h
        repeat' split at h
        all_goals cases h <;> simp
      | dot dir => simp [hp] at h; simp [← h]
      | dotdot dir => simp [hp] at h; simp [← h]
      | top => simp [hp] at h; simp [← h]

end Volume

namespace TextFile

theorem abandon_ne_endless {v : Volume} {temp : String} {f g : SysFault}
    (hf : f.errno ≠ .endless) (h : (abandon v temp f).2 = .error g) : g.errno ≠ .endless := by
  unfold abandon at h
  split at h
  · next g' hl =>
    simp only [Except.error.injEq] at h
    split at h
    · exact h ▸ hf
    · exact h ▸ Volume.lookup_ne_endless hl
  · cases h
    simp
  · split at h
    · cases h
      exact hf
    · next g' hu =>
      simp only [Except.error.injEq] at h
      split at h
      · exact h ▸ hf
      · exact h ▸ Volume.unlink_ne_endless hu

/-- The only fault of a write that never returns is that of the search for the canonical path
of the path written. -/
theorem writeAtomic_endless {host : Host} {v : Volume} {serial : Nat} {p content : String}
    {f : SysFault} (h : (writeAtomic host v serial p content).2 = .error f)
    (hf : f.errno = .endless) : v.realpath p = .error f := by
  unfold writeAtomic at h
  cases ht : target v p with
  | error g =>
    simp only [ht, Except.error.injEq] at h
    subst h
    unfold target at ht
    cases hr : v.realpath p with
    | error g' =>
      simp only [hr, Except.error.injEq] at ht
      rw [ht]
    | ok t =>
      simp only [hr] at ht
      cases hs : v.stat t with
      | error g' =>
        simp only [hs, Except.error.injEq] at ht
        exact absurd hf (ht ▸ Volume.lookup_ne_endless hs)
      | ok n => simp [hs] at ht
  | ok tn =>
    obtain ⟨t, node⟩ := tn
    simp only [ht] at h
    exfalso
    split at h
    · next g hw => exact abandon_ne_endless (Volume.writeFile_ne_endless hw) h hf
    · split at h
      · next g hc => exact abandon_ne_endless (Volume.chmod_ne_endless hc) h hf
      · split at h
        · next g hr => exact abandon_ne_endless (Volume.rename_ne_endless hr) h hf
        · cases h

end TextFile

namespace Walk

/-- Entering a directory leaves the walk searching for ever only when it was already, or when the
search for the directory's canonical path never ends. -/
theorem enter_endless {w : Walk} {v : Volume} {dir d : String}
    (h : (w.enter v dir).1.endless = some d) :
    w.endless = some d ∨ d = dir ∧ ∃ f, v.realpath dir = .error f ∧ f.errno = .endless := by
  unfold enter at h
  split at h
  · next f hf =>
    split at h
    · next hend =>
      simp only [Option.some.injEq] at h
      exact .inr ⟨h.symm, f, hf, hend⟩
    · exact .inl h
  · split at h
    · exact .inl h
    · split at h
      · exact .inl h
      · exact .inl h

/-- A walk that stepped into a search that never ends met it: no other step marks it. -/
theorem advance_endless (v : Volume) {d : String} (fuel : Nat) (w : Walk)
    (errors : List Diagnostic) (h : (advance v fuel w errors).walk.endless = some d) :
    w.endless = some d ∨ ∃ f, v.realpath d = .error f ∧ f.errno = .endless := by
  fun_induction advance v fuel w errors with
  | case1 => exact .inl h
  | case2 fuel w errors _ w' found henter ih =>
    rcases ih h with h' | h'
    · have hstart := enter_endless (show (enter { w with started := true } v w.root).1.endless =
        some d by rw [henter]; exact h')
      rcases hstart with h'' | ⟨rfl, hsearch⟩
      · exact .inl h''
      · exact .inr hsearch
    · exact .inr h'
  | case3 => exact .inl h
  | case4 fuel w errors _ dir outer _ ih => exact ih h
  | case5 fuel w errors _ dir name kind rest outer _ w' path f _ ih => exact ih h
  | case6 fuel w errors _ dir name kind rest outer _ w' path _ w'' found henter ih =>
    rcases ih h with h' | h'
    · have hentered := enter_endless (show (enter w' v path).1.endless = some d by
        rw [henter]; exact h')
      rcases hentered with h'' | ⟨rfl, hsearch⟩
      · exact .inl h''
      · exact .inr hsearch
    · exact .inr h'
  | case7 => exact .inl h
  | case8 fuel w errors _ dir name kind rest outer _ w' path _ _ ih => exact ih h
  | case9 fuel w errors _ dir name kind rest outer _ w' path _ ih => exact ih h

/-- A pull that leaves a walk searching for ever, which was not, met a canonical path search that
never ends on the volume pulled. -/
theorem pull_endless {w : Walk} {v : Volume} {d : String} (hw : w.endless = none)
    (h : (w.pull v).walk.endless = some d) :
    ∃ f, v.realpath d = .error f ∧ f.errno = .endless :=
  (advance_endless v _ w [] h).resolve_left (by simp [hw])

end Walk

namespace Rule

/-- The items of an array document fail only as a rules file that cannot be loaded. -/
theorem ofItems_error_code {source : String} {d : Diagnostic} :
    ∀ {index : Nat} {items : List Json}, ofItems source index items = .error d →
      d.code = .rulesUnloadable
  | _, [], h => nomatch h
  | index, item :: rest, h => by
    unfold ofItems at h
    split at h
    · cases h
      rfl
    · cases hrest : ofItems source (index + 1) rest with
      | error e =>
        rw [hrest] at h
        cases h
        exact ofItems_error_code hrest
      | ok rs =>
        rw [hrest] at h
        nomatch h

/-- The members of an object document fail only as a rules file that cannot be loaded. -/
theorem ofMembers_error_code {source : String} {d : Diagnostic} :
    ∀ {members : List (String × Json)}, ofMembers source members = .error d →
      d.code = .rulesUnloadable
  | [], h => nomatch h
  | (pattern, value) :: rest, h => by
    cases value
    case string replacement =>
      cases hrest : ofMembers source rest with
      | error e =>
        simp only [ofMembers, hrest, Except.map, Except.error.injEq] at h
        exact h ▸ ofMembers_error_code hrest
      | ok rs => simp [ofMembers, hrest, Except.map] at h
    -- a member whose value is not a string stops the reading
    all_goals
      simp only [ofMembers, Except.error.injEq] at h
      exact h ▸ rfl

/-- A document that gives no rules is a rules file that cannot be loaded. -/
theorem ofDocument_error_code {doc : Json} {source : String} {d : Diagnostic}
    (h : ofDocument doc source = .error d) : d.code = .rulesUnloadable := by
  unfold ofDocument at h
  split at h
  · exact ofItems_error_code h
  · exact ofMembers_error_code h
  · cases h
    rfl

end Rule

namespace Options

/-- An extension that cannot be used is an invalid option. -/
theorem normalizeExtension_error_code {extension : String} {d : Diagnostic}
    (h : normalizeExtension extension = .error d) : d.code = .invalidOption := by
  unfold normalizeExtension at h
  dsimp only at h
  split at h
  · cases h
    rfl
  · split at h <;> nomatch h

/-- Rules that make no table are an invalid option. -/
theorem tableOf_error_code {rules : List Rule} {d : Diagnostic} (h : tableOf rules = .error d) :
    d.code = .invalidOption := by
  unfold tableOf at h
  cases hbuilt : Table.ofRules rules with
  | error e =>
    rw [hbuilt] at h
    cases h
    rfl
  | ok t =>
    rw [hbuilt] at h
    nomatch h

/-- A rules file fails to load only as a rules file that cannot be loaded. -/
theorem loadRules_error_code {host : Host} {v : Volume} {path : String} {d : Diagnostic}
    (h : loadRules host v path = .error d) : d.code = .rulesUnloadable := by
  unfold loadRules at h
  dsimp only at h
  split at h
  · cases h
    rfl
  · split at h
    · cases h
      rfl
    · split at h
      · cases h
        rfl
      · exact Rule.ofDocument_error_code h

/-- The table of the options fails only as an invalid option or a rules file that cannot be
loaded. -/
theorem table_error_code {host : Host} {v : Volume} {o : Options} {cwd : String} {d : Diagnostic}
    (h : o.table host v cwd = .error d) : d.code = .invalidOption ∨ d.code = .rulesUnloadable := by
  unfold table at h
  split at h
  · nomatch h
  · exact Or.inl (tableOf_error_code h)
  · split at h
    · nomatch h
    · -- the rules file is loaded first, and only loaded rules are built into a table
      cases hload : loadRules host v (Path.resolve cwd _) with
      | error e =>
        rw [hload] at h
        cases h
        exact Or.inr (loadRules_error_code hload)
      | ok rules =>
        rw [hload] at h
        exact Or.inl (tableOf_error_code h)
  · nomatch h

/-- The working directory cannot be found only when the process's has been removed and the
options name none of their own that is absolute. -/
theorem workingDir_error {host : Host} {o : Options} {f : SysFault}
    (h : o.workingDir host = .error f) :
    f = Host.cwdFault ∧ host.cwdRemoved = true ∧ o.cwd.any Path.isAbsolute = false := by
  unfold workingDir at h
  split at h
  · next hc =>
    cases h
    simpa using hc
  · cases h

/-- Options fail to settle only when the working directory cannot be found, or as an invalid
option or a rules file that cannot be loaded. -/
theorem settle_error {host : Host} {v : Volume} {o : Options} {e : Thrown}
    (h : o.settle host v = .error e) :
    (e = .fault Host.cwdFault ∧ host.cwdRemoved = true ∧ o.cwd.any Path.isAbsolute = false) ∨
      ∃ d, e = .raised d ∧ (d.code = .invalidOption ∨ d.code = .rulesUnloadable) := by
  unfold settle at h
  cases hcwd : o.workingDir host with
  | error f =>
    simp only [hcwd, Except.mapError, bind, Except.bind] at h
    cases h
    obtain ⟨rfl, hremoved, habs⟩ := workingDir_error hcwd
    exact .inl ⟨rfl, hremoved, habs⟩
  | ok cwd =>
    cases hext : normalizeExtension (o.extension.getD defaultExtension) with
    | error d =>
      simp only [hcwd, hext, Except.mapError, bind, Except.bind] at h
      cases h
      exact .inr ⟨d, rfl, .inl (normalizeExtension_error_code hext)⟩
    | ok extension =>
      cases htable : o.table host v cwd with
      | error d =>
        simp only [hcwd, hext, htable, Except.mapError, bind, Except.bind] at h
        cases h
        exact .inr ⟨d, rfl, table_error_code htable⟩
      | ok t => simp [hcwd, hext, htable, Except.mapError, bind, Except.bind, pure, Except.pure] at h

end Options

namespace Run

/-- A root that cannot be used is reported as an inaccessible root. -/
theorem checkRoot_error_code {host : Host} {v : Volume} {root : String} {d : Diagnostic}
    (h : checkRoot host v root = .error d) : d.code = .rootInaccessible := by
  unfold checkRoot at h
  split at h
  · cases h
    rfl
  · split at h
    · cases h
      rfl
    · nomatch h
  · cases h
    rfl

/-- A file stops a run exactly when it reads as a text that the table cannot be applied to on
the engine, the stop being the engine's refusal; or when it reads as a text that the table
changes and the search for its canonical path never ends, so that the run never returns. -/
theorem substituteFile_eq_error_iff {host : Host} {v : Volume} {table : Table}
    {path id : String} {serial : Nat} {e : Thrown} :
    substituteFile host v table path id serial = .error e ↔
      ∃ text, TextFile.read v path = .ok text ∧
        ((e = .tooLong ∧ table.fits text = false) ∨
          (e = .endless path ∧ table.fits text = true ∧ (table.applyWithStats text).text ≠ text ∧
            ∃ f, v.realpath path = .error f ∧ f.errno = .endless)) := by
  unfold substituteFile
  cases hread : TextFile.read v path with
  | error f => simp
  | ok text =>
    simp only [Except.ok.injEq, exists_eq_left']
    cases hfits : table.fits text with
    | false => simp [eq_comm]
    | true =>
      simp only [if_true, Bool.true_eq_false, and_false, false_or, true_and]
      by_cases hsame : (table.applyWithStats text).text = text
      · simp [hsame]
      · simp only [hsame, if_false, ne_eq, not_false_eq_true, true_and]
        -- the write fails as `endless` exactly when the search for the canonical path does
        constructor
        · intro h
          split at h
          · next v' f hw =>
            split at h
            · next hend =>
              cases h
              exact ⟨rfl, f, TextFile.writeAtomic_endless (by rw [hw]) hend, hend⟩
            · cases h
          · cases h
        · rintro ⟨rfl, f, hreal, hend⟩
          have hw : TextFile.writeAtomic host v serial path (table.applyWithStats text).text =
              (v, .error f) := by
            simp only [TextFile.writeAtomic, TextFile.target, hreal]
          simp only [hw, hend, if_true]

section Loop

variable {host : Host} {settings : Settings} {fuel : Nat} {v : Volume} {count : Nat} {w : Walk}
  {r : RunReport} {logs : List LogLine}

/-- One pull of a run that meets a canonical path search that never ends ends the run: it never
returns. -/
theorem substituteAll_of_endless {dir : String} (h : (w.pull v).walk.endless = some dir) :
    substituteAll host settings (fuel + 1) v count w r logs =
      ⟨v, logs ++ (w.pull v).errors.map Diagnostic.logLine, .error (.endless dir), count⟩ := by
  simp only [substituteAll, h]

/-- One pull of a run that finds the walk done ends the run with the walk's last errors. -/
theorem substituteAll_of_next_none (hend : (w.pull v).walk.endless = none)
    (h : (w.pull v).next = none) :
    substituteAll host settings (fuel + 1) v count w r logs =
      ⟨v, logs ++ (w.pull v).errors.map Diagnostic.logLine,
        .ok { r with errors := r.errors ++ (w.pull v).errors }, count⟩ := by
  simp only [substituteAll, hend, h]

/-- One pull of a run that finds a file that stops it ends the run where it stands. -/
theorem substituteAll_of_error {path : String} {e : Thrown} (hend : (w.pull v).walk.endless = none)
    (h : (w.pull v).next = some path)
    (hfile : substituteFile host v settings.table path (fileId host settings.root path) (count + 1) =
      .error e) :
    substituteAll host settings (fuel + 1) v count w r logs =
      ⟨v, logs ++ (w.pull v).errors.map Diagnostic.logLine, .error e, count⟩ := by
  simp only [substituteAll, hend, h, hfile]

/-- One pull of a run that finds a file with an outcome records it and runs on, with the
temporary files its write named counted. -/
theorem substituteAll_of_ok {v' : Volume} {path : String} {o : Outcome}
    (hend : (w.pull v).walk.endless = none) (h : (w.pull v).next = some path)
    (hfile : substituteFile host v settings.table path (fileId host settings.root path) (count + 1) =
      .ok (v', o)) :
    substituteAll host settings (fuel + 1) v count w r logs =
      let recorded := record ⟨r.root, r.extension, r.scannedFiles + 1, r.updatedFiles,
        r.totalReplacements, r.errors ++ (w.pull v).errors⟩
        (logs ++ (w.pull v).errors.map Diagnostic.logLine) o
      substituteAll host settings fuel v' (named v path count o) (w.pull v).walk recorded.1
        recorded.2 := by
  simp only [substituteAll, hend, h, hfile]

end Loop

/-- A run of the files of a walk that has not met a search that never ends stops only with the
engine's refusal, at a text that a file holds when the run stops and that the table cannot be
applied to, or never returns, a canonical path search on the volume it stands in never ending. -/
theorem substituteAll_eq_error {host : Host} {settings : Settings} {e : Thrown} :
    ∀ {fuel : Nat} {v : Volume} {count : Nat} {w : Walk} {r : RunReport} {logs : List LogLine},
      w.endless = none → (substituteAll host settings fuel v count w r logs).result = .error e →
        (e = .tooLong ∧ ∃ path text,
          TextFile.read (substituteAll host settings fuel v count w r logs).volume path = .ok text ∧
            settings.table.fits text = false) ∨
        ∃ path, e = .endless path ∧ ∃ f,
          (substituteAll host settings fuel v count w r logs).volume.realpath path = .error f ∧
            f.errno = .endless
  | 0, _, _, _, _, _, _, h => nomatch h
  | fuel + 1, v, count, w, r, logs, hw, h => by
    cases hend : (w.pull v).walk.endless with
    | some dir =>
      -- the pull entered a directory whose canonical path is searched for ever
      rw [substituteAll_of_endless hend] at h ⊢
      cases h
      exact .inr ⟨dir, rfl, Walk.pull_endless hw hend⟩
    | none =>
      cases hnext : (w.pull v).next with
      | none => simp [substituteAll_of_next_none hend hnext] at h
      | some path =>
        cases hfile : substituteFile host v settings.table path (fileId host settings.root path)
            (count + 1) with
        | error e' =>
          -- the file pulled stops the run, in the volume the run stands in
          rw [substituteAll_of_error hend hnext hfile] at h ⊢
          cases h
          obtain ⟨text, hread, ⟨rfl, hfits⟩ | ⟨rfl, -, -, hsearch⟩⟩ :=
            substituteFile_eq_error_iff.mp hfile
          · exact .inl ⟨rfl, path, text, hread, hfits⟩
          · exact .inr ⟨path, rfl, hsearch⟩
        | ok step =>
          rw [substituteAll_of_ok hend hnext hfile] at h ⊢
          exact substituteAll_eq_error hend h

/-- A run that raises a diagnostic raises a fatal one about its options or its root, before it
has changed or logged anything. -/
theorem processFiles_raised {host : Host} {v : Volume} {o : Options} {d : Diagnostic}
    (h : (processFiles host v o).result = .error (.raised d)) :
    d.code ∈ [Code.invalidOption, .rulesUnloadable, .rootInaccessible] ∧ d.severity = .fatal ∧
      (processFiles host v o).volume = v ∧ (processFiles host v o).logs = [] := by
  have hcode : d.code ∈ [Code.invalidOption, .rulesUnloadable, .rootInaccessible] ∧
      (processFiles host v o).volume = v ∧ (processFiles host v o).logs = [] := by
    unfold processFiles at h ⊢
    split at h
    · next e hsettle =>
      cases h
      rcases Options.settle_error hsettle with ⟨hfault, -⟩ | ⟨d', hd', hc⟩
      · cases hfault
      · cases hd'
        rcases hc with hc | hc <;> simp [hc]
    · split at h
      · next d' hroot =>
        cases h
        simp [checkRoot_error_code hroot]
      · -- past the root check only the engine's refusal and endless searches stop the run
        rcases substituteAll_eq_error rfl h with ⟨h', -⟩ | ⟨path, h', -⟩ <;> cases h'
  refine ⟨hcode.1, ?_, hcode.2⟩
  have hmem := hcode.1
  simp only [List.mem_cons, List.not_mem_nil, or_false] at hmem
  rcases hmem with hc | hc | hc <;> simp [Diagnostic.severity, hc, Code.severity]

/-- A run that fails with a fault of its own could not find its working directory, removed, and
has changed and logged nothing. -/
theorem processFiles_fault {host : Host} {v : Volume} {o : Options} {f : SysFault}
    (h : (processFiles host v o).result = .error (.fault f)) :
    f = Host.cwdFault ∧ host.cwdRemoved = true ∧ o.cwd.any Path.isAbsolute = false ∧
      (processFiles host v o).volume = v ∧ (processFiles host v o).logs = [] := by
  unfold processFiles at h ⊢
  split at h
  · next e hsettle =>
    cases h
    rcases Options.settle_error hsettle with ⟨hfault, hremoved, habs⟩ | ⟨d, hd, -⟩
    · cases hfault
      exact ⟨rfl, hremoved, habs, rfl, rfl⟩
    · cases hd
  · split at h
    · cases h
    · rcases substituteAll_eq_error rfl h with ⟨h', -⟩ | ⟨path, h', -⟩ <;> cases h'

/-- A run stopped by the engine's refusal had settled its options, and a file then holds a text
that their table cannot be applied to. -/
theorem processFiles_tooLong {host : Host} {v : Volume} {o : Options}
    (h : (processFiles host v o).result = .error .tooLong) :
    ∃ s, o.settle host v = .ok s ∧ ∃ path text,
      TextFile.read (processFiles host v o).volume path = .ok text ∧ s.table.fits text = false := by
  unfold processFiles at h ⊢
  split at h
  · next e hsettle =>
    cases h
    rcases Options.settle_error hsettle with ⟨hfault, -⟩ | ⟨d, hd, -⟩
    · cases hfault
    · cases hd
  · next s hsettle =>
    split at h
    · nomatch h
    · rcases substituteAll_eq_error rfl h with ⟨-, hfile⟩ | ⟨path, h', -⟩
      · exact ⟨s, hsettle, hfile⟩
      · cases h'

/-- A run that never returns had settled its options, and the search for a canonical path on the
volume it stands in never ends. -/
theorem processFiles_endless {host : Host} {v : Volume} {o : Options} {path : String}
    (h : (processFiles host v o).result = .error (.endless path)) :
    ∃ s, o.settle host v = .ok s ∧ ∃ f,
      (processFiles host v o).volume.realpath path = .error f ∧ f.errno = .endless := by
  unfold processFiles at h ⊢
  split at h
  · next e hsettle =>
    cases h
    rcases Options.settle_error hsettle with ⟨hfault, -⟩ | ⟨d, hd, -⟩
    · cases hfault
    · cases hd
  · next s hsettle =>
    split at h
    · nomatch h
    · rcases substituteAll_eq_error rfl h with ⟨h', -⟩ | ⟨path', h', hsearch⟩
      · cases h'
      · cases h'
        exact ⟨s, hsettle, hsearch⟩

/-- The friendly form of a run keeps its volume and its log; it gives nothing for a run that
never returns, the report of a run that reports, and for a run that stopped otherwise no report
and the stop's diagnostic alone. -/
theorem execute_eq (host : Host) (v : Volume) (o : Options) :
    (execute host v o).volume = (processFiles host v o).volume ∧
      (execute host v o).logs = (processFiles host v o).logs ∧
      (∀ path, (processFiles host v o).result = .error (.endless path) →
        (execute host v o).result = none) ∧
      (∀ r, (processFiles host v o).result = .ok r →
        ∃ x, (execute host v o).result = some x ∧ x.report = some r) ∧
      (∀ e, (processFiles host v o).result = .error e → (∀ path, e ≠ .endless path) →
        (execute host v o).result =
          some ⟨false, none, [e.diagnostic], some e.diagnostic.userText⟩) := by
  refine ⟨rfl, rfl, ?_, ?_, ?_⟩
  · intro path hp
    simp only [execute, hp]
  · intro r hr
    simp only [execute, hr]
    split <;> exact ⟨_, rfl, rfl⟩
  · intro e he hne
    simp only [execute, he]

/-- A run stops only on a fatal diagnostic about its options or its root, or on a working
directory that was removed, having changed and logged nothing in both cases; on the engine's
refusal while a file holds a text that the table cannot be applied to; or it never returns, a
canonical path search on the volume it stands in never ending. Its friendly form gives nothing
exactly when the run never returns; otherwise it gives no report exactly when the run stopped,
and then fails with the stop's diagnostic alone. -/
theorem processFiles_stops_only_when_fatal_or_unguarded (host : Host) (v : Volume)
    (o : Options) :
    (∀ d, (processFiles host v o).result = .error (.raised d) →
      d.code ∈ [Code.invalidOption, .rulesUnloadable, .rootInaccessible] ∧ d.severity = .fatal ∧
        (processFiles host v o).volume = v ∧ (processFiles host v o).logs = []) ∧
    (∀ f, (processFiles host v o).result = .error (.fault f) →
      f = Host.cwdFault ∧ host.cwdRemoved = true ∧ o.cwd.any Path.isAbsolute = false ∧
        (processFiles host v o).volume = v ∧ (processFiles host v o).logs = []) ∧
    ((processFiles host v o).result = .error .tooLong →
      ∃ s, o.settle host v = .ok s ∧ ∃ path text,
        TextFile.read (processFiles host v o).volume path = .ok text ∧ s.table.fits text = false) ∧
    (∀ path, (processFiles host v o).result = .error (.endless path) →
      ∃ s, o.settle host v = .ok s ∧ ∃ f,
        (processFiles host v o).volume.realpath path = .error f ∧ f.errno = .endless) ∧
    ((execute host v o).result = none ↔
      ∃ path, (processFiles host v o).result = .error (.endless path)) ∧
    (∀ x, (execute host v o).result = some x →
      (x.report = none ↔ ∃ e, (processFiles host v o).result = .error e) ∧
      ∀ e, (processFiles host v o).result = .error e →
        x.success = false ∧ x.errors = [e.diagnostic]) := by
  obtain ⟨-, -, hnever, hreport, hstop⟩ := execute_eq host v o
  refine ⟨fun d h => processFiles_raised h, fun f h => processFiles_fault h, processFiles_tooLong,
    fun path h => processFiles_endless h, ?_, fun x hx => ?_⟩
  · constructor
    · -- a run that reports, or stops on anything but an endless search, gives a result
      intro hnone
      cases hres : (processFiles host v o).result with
      | ok r =>
        obtain ⟨x, hx, -⟩ := hreport r hres
        rw [hx] at hnone
        cases hnone
      | error e =>
        by_cases hend : ∃ path, e = .endless path
        · obtain ⟨path, rfl⟩ := hend
          exact ⟨path, rfl⟩
        · rw [hstop e hres fun path h => hend ⟨path, h⟩] at hnone
          cases hnone
    · rintro ⟨path, hp⟩
      exact hnever path hp
  · have hreturns : ∀ e, (processFiles host v o).result = .error e → ∀ path, e ≠ .endless path := by
      rintro e he path rfl
      rw [hnever path he] at hx
      cases hx
    refine ⟨⟨fun hnone => ?_, fun ⟨e, he⟩ => ?_⟩, fun e he => ?_⟩
    · cases hres : (processFiles host v o).result with
      | ok r =>
        obtain ⟨x', hx', hr⟩ := hreport r hres
        rw [hx] at hx'
        cases hx'
        rw [hr] at hnone
        cases hnone
      | error e => exact ⟨e, rfl⟩
    · rw [hstop e he (hreturns e he)] at hx
      cases hx
      rfl
    · rw [hstop e he (hreturns e he)] at hx
      cases hx
      exact ⟨rfl, rfl⟩

end Run

end Reword
