import Mathlib
import Reword.Proofs.AtomicWrite
import Reword.Proofs.Stops
import Reword.Proofs.Traversal
/-!
# A run over a batch of files

A run pulls the files of its walk one at a time and rewrites each before it pulls the next, so
the walk reads a volume that the run keeps changing. Rewriting a file puts a file of the same
permission bits where it stood, which keeps the volume's shape, and a walk reads only the shape
(`pull_eq_of_shape_eq`): the run pulls the files that its walk pulls on the volume it started on
(`Run.visits`).

**The law** (`processFiles_tallies_isolated_files`): when no pull of the walk meets a canonical
path search that never ends, the files of the walk lead to different locations and each is
isolated (`Run.Isolated`: its text fits the table, and where the table changes it, the search
for its canonical path ends, leads to it, and nothing stands at any temporary path beside it),
the run visits every file of its walk, the pull limit never cutting it short; each file has the
outcome it has alone on the starting volume; the report counts the files, lists the changed
ones in walk order with their replacements summed, and gives the walk's diagnostics, each of a
directory skipped, and the failures in the order they arise, each logged once and in that order;
and the volume after the run is the one before with the changed files rewritten and nothing else
(`Volume.Rewrites`).

Where a file is not isolated the law fails. A text that the table would take past the longest
string stops the run with the engine's refusal, and a search for its canonical path that never
ends means the run never returns. A link whose target climbs out of a linked directory with `..`
is read one way as text and another through the volume, and the file written is then not the
file read. A file standing at the temporary path is overwritten and renamed away.
-/

namespace Reword

namespace Volume

/-- The file a path leads to in `v₀` is, if it is a file, the same in `v`. -/
def SameFile (v₀ v : Volume) (path : String) : Prop :=
  ∀ loc, v₀.find path true = .ok loc → ∀ inode m bytes,
    v₀.node? loc = some (.file inode m bytes) → v.node? loc = v₀.node? loc

/-- A lookup that succeeds found its node at a location. -/
theorem lookup_eq_ok_find {v : Volume} {call p : String} {follow : Bool} {n : Node}
    (h : v.lookup call p follow = .ok n) : ∃ loc, v.find p follow = .ok loc ∧ v.node? loc = some n := by
  unfold lookup at h
  cases hnul : SysFault.nulIn? call "path" p with
  | some f => simp [hnul] at h
  | none =>
    simp only [hnul] at h
    cases hf : v.find p follow with
    | error e => simp [hf] at h
    | ok loc =>
      simp only [hf] at h
      cases hat : v.node? loc with
      | none => simp [hat] at h
      | some n' =>
        simp only [hat, Except.ok.injEq] at h
        exact ⟨loc, rfl, h ▸ hat⟩

/-- Where a node stands below the top, a directory holds it. -/
theorem parent_of_node? {v : Volume} {ds : List String} {name : String} {n : Node}
    (h : v.node? (ds ++ [name]) = some n) : ∃ m entries, v.node? ds = some (.dir m entries) := by
  simp only [node?, Node.get?_append] at h
  cases hds : v.top.get? ds with
  | none => simp [hds] at h
  | some d =>
    rw [hds, Option.bind_some] at h
    cases d with
    | dir m entries => exact ⟨m, entries, hds⟩
    | file => simp [Node.get?] at h
    | link => simp [Node.get?] at h
    | special => simp [Node.get?] at h

/-- A file of a well-formed volume stands in a directory, so changing its location reads back. -/
theorem node?_update_file {v : Volume} {loc : List String} {inode m : Nat} {bytes : List UInt8}
    (hwf : v.WellFormed) (hat : v.node? loc = some (.file inode m bytes))
    (f : Option Node → Option Node) : (v.update loc f).node? loc = f (v.node? loc) := by
  rcases List.eq_nil_or_concat loc with rfl | ⟨ds, name, rfl⟩
  · obtain ⟨mtop, entries, htop⟩ := hwf.top_dir
    simp [node?, htop, Node.get?] at hat
  · rw [List.concat_eq_append] at hat ⊢
    obtain ⟨m', entries, hparent⟩ := parent_of_node? hat
    exact node?_update_self f (by simp) ⟨m', entries, by simpa using hparent⟩

/-- A node other than a directory stands nowhere above another node. -/
theorem not_prefix_of_not_dir {v : Volume} {a b : List String} {n : Node}
    (ha : v.node? a = some n) (hn : n.kind ≠ .dir) (hb : v.node? b ≠ none) (hne : a ≠ b) :
    ¬a <+: b := by
  rintro ⟨rest, rfl⟩
  have hrest : rest ≠ [] := by
    rintro rfl
    exact hne (List.append_nil a).symm
  exact hb (node?_below_of_not_dir ha hn hrest)

/-- Two paths that lead to different locations. -/
def Apart (v : Volume) (a b : String) : Prop :=
  ∀ loc, v.find a true = .ok loc → v.find b true ≠ .ok loc

/-- `v'` is `v` with new bytes written to the files at the locations of `writes`: it has the
same shape, every location at or above none of them is as it was, and each of them holds a
file with the old permission bits and the new bytes. -/
structure Rewrites (v v' : Volume) (writes : List (List String × List UInt8)) : Prop where
  wellFormed : v'.WellFormed
  shape : v'.shape = v.shape
  frame : ∀ loc, (∀ w ∈ writes, ¬loc <+: w.1) → v'.node? loc = v.node? loc
  written : ∀ w ∈ writes, ∃ inode m bytes inode', v.node? w.1 = some (.file inode m bytes) ∧
    v'.node? w.1 = some (.file inode' (m % 0o10000) w.2)

theorem Rewrites.refl {v : Volume} (hwf : v.WellFormed) : v.Rewrites v [] where
  wellFormed := hwf
  shape := rfl
  frame _ _ := rfl
  written _ h := absurd h List.not_mem_nil

/-- Writing a file keeps everything else. -/
theorem Rewrites.single {v : Volume} {loc : List String} {inode m inode' : Nat}
    {bytes bytes' : List UInt8} (hwf : v.WellFormed) (hat : v.node? loc = some (.file inode m bytes)) :
    v.Rewrites (v.update loc fun _ => some (.file inode' (m % 0o10000) bytes')) [(loc, bytes')] where
  wellFormed := wellFormed_update_some hwf rfl
  shape := shape_update_some hwf hat (by simp)
  frame l hl := by
    have hnot : ¬l <+: loc := hl _ List.mem_cons_self
    by_cases hbelow : loc <+: l
    · -- below a file nothing stands, before the write or after it
      obtain ⟨rest, rfl⟩ := hbelow
      have hrest : rest ≠ [] := by
        rintro rfl
        exact hnot (by simp)
      have hnew := node?_update_file hwf hat fun _ => some (.file inode' (m % 0o10000) bytes')
      rw [node?_below_of_not_dir hat (by simp [Node.kind]) hrest,
        node?_below_of_not_dir hnew (by simp [Node.kind]) hrest]
    · exact node?_update_of_not_prefix _ hbelow hnot
  written w hw := by
    rw [List.mem_singleton] at hw
    subst hw
    exact ⟨inode, m, bytes, inode', hat, node?_update_file hwf hat _⟩

/-- Rewrites of different files one after the other are one rewrite. -/
theorem Rewrites.trans {v v₁ v₂ : Volume} {ws₁ ws₂ : List (List String × List UInt8)}
    (h₁ : v.Rewrites v₁ ws₁) (h₂ : v₁.Rewrites v₂ ws₂)
    (hne : ∀ w ∈ ws₁, ∀ w' ∈ ws₂, w.1 ≠ w'.1) : v.Rewrites v₂ (ws₁ ++ ws₂) where
  wellFormed := h₂.wellFormed
  shape := h₂.shape.trans h₁.shape
  frame loc hloc := by
    rw [h₂.frame loc fun w hw => hloc w (List.mem_append_right _ hw),
      h₁.frame loc fun w hw => hloc w (List.mem_append_left _ hw)]
  written w hw := by
    rcases List.mem_append.mp hw with hw | hw
    · -- a file of the first rewrite is above none of the second, which leaves it
      obtain ⟨inode, m, bytes, inode', hat, hat₁⟩ := h₁.written w hw
      refine ⟨inode, m, bytes, inode', hat, ?_⟩
      rw [h₂.frame w.1 ?_, hat₁]
      intro w' hw'
      obtain ⟨_, _, _, _, hat', -⟩ := h₂.written w' hw'
      exact not_prefix_of_not_dir hat₁ (by simp [Node.kind]) (by simp [hat']) (hne w hw w' hw')
    · -- a file of the second rewrite is above none of the first, which left it
      obtain ⟨inode, m, bytes, inode', hat₁, hat₂⟩ := h₂.written w hw
      refine ⟨inode, m, bytes, inode', ?_, hat₂⟩
      rw [← h₁.frame w.1 ?_]
      · exact hat₁
      intro w' hw'
      obtain ⟨_, _, _, _, -, hat'⟩ := h₁.written w' hw'
      exact not_prefix_of_not_dir hat₁ (by simp [Node.kind]) (by simp [hat'])
        fun h => hne w' hw' w hw h.symm

/-- A file the run has still to read stays the same through a rewrite of other files. -/
theorem SameFile.rewrite {v₀ v v' : Volume} {path : String} {ws : List (List String × List UInt8)}
    (hsame : v₀.SameFile v path) (hrw : v.Rewrites v' ws)
    (hapart : ∀ w ∈ ws, v₀.find path true ≠ .ok w.1) : v₀.SameFile v' path := by
  intro loc hloc inode m bytes hat₀
  have hat : v.node? loc = some (.file inode m bytes) := (hsame loc hloc inode m bytes hat₀).trans hat₀
  rw [hrw.frame loc ?_, hsame loc hloc inode m bytes hat₀]
  intro w hw
  obtain ⟨_, _, _, _, hatw, -⟩ := hrw.written w hw
  exact not_prefix_of_not_dir hat (by simp [Node.kind]) (by simp [hatw])
    fun h => hapart w hw (h ▸ hloc)

end Volume

namespace TextFile

end TextFile

namespace Walk

/-- The pulls of a walk on a volume that nothing changes, at most `fuel` of them: each file
with the diagnostics met on the way to it, and the diagnostics met after the last file. -/
def trace (v : Volume) : Nat → Walk → List (List Diagnostic × String) × List Diagnostic
  | 0, _ => ([], [])
  | fuel + 1, w =>
    let p := w.pull v
    match p.next with
    | none => ([], p.errors)
    | some path =>
      let rest := trace v fuel p.walk
      ((p.errors, path) :: rest.1, rest.2)

/-- A fault met on the way is reported as a directory skipped. -/
theorem fault_code (f : SysFault) (path : String) : (fault f path).code = .directorySkipped := by
  simp [fault, Cause.diagnose, Stage.code]

/-- Entering a directory meets at most the fault of a directory skipped. -/
theorem enter_code (w : Walk) (v : Volume) (dir : String) :
    ∀ d ∈ (w.enter v dir).2, d.code = .directorySkipped := by
  unfold enter
  split
  · split
    · simp
    · simp [fault_code]
  · split
    · simp
    · split <;> simp [fault_code]

/-- Every diagnostic a walk meets on its way to a file is of a directory skipped. -/
theorem advance_code (v : Volume) (fuel : Nat) (w : Walk) (errors : List Diagnostic)
    (h : ∀ d ∈ errors, d.code = .directorySkipped) :
    ∀ d ∈ (advance v fuel w errors).errors, d.code = .directorySkipped := by
  fun_induction advance v fuel w errors with
  | case1 => exact h
  | case2 fuel w errors _ w' found henter ih =>
    have hfound := enter_code { w with started := true } v w.root
    rw [henter] at hfound
    exact ih (List.forall_mem_append.mpr ⟨h, hfound⟩)
  | case3 => exact h
  | case4 fuel w errors _ dir outer _ ih => exact ih h
  | case5 fuel w errors _ dir name kind rest outer _ w' path f _ ih =>
    exact ih (List.forall_mem_append.mpr ⟨h, by simp [fault_code]⟩)
  | case6 fuel w errors _ dir name kind rest outer _ w' path _ w'' found henter ih =>
    have hfound := enter_code w' v path
    rw [henter] at hfound
    exact ih (List.forall_mem_append.mpr ⟨h, hfound⟩)
  | case7 => exact h
  | case8 fuel w errors _ dir name kind rest outer _ w' path _ _ ih => exact ih h
  | case9 fuel w errors _ dir name kind rest outer _ w' path _ ih => exact ih h

theorem pull_code (w : Walk) (v : Volume) :
    ∀ d ∈ (w.pull v).errors, d.code = .directorySkipped :=
  advance_code v _ w [] (fun _ h => absurd h List.not_mem_nil)

/-- The pulls of a walk with more pulls allowed than its measure are the same whatever the number
allowed: each pull that gives a file lowers the measure, and one that gives none ends them. -/
theorem trace_fuel {v : Volume} :
    ∀ {fuel fuel' : Nat} {w : Walk}, w.measure v < fuel → w.measure v < fuel' →
      w.trace v fuel = w.trace v fuel'
  | 0, _, _, h, _ => absurd h (Nat.not_lt_zero _)
  | _, 0, _, _, h' => absurd h' (Nat.not_lt_zero _)
  | fuel + 1, fuel' + 1, w, h, h' => by
    simp only [trace]
    rcases pull_cases w v with ⟨hnone, -⟩ | ⟨hsome, hdrop⟩
    · simp only [hnone]
    · obtain ⟨path, hpath⟩ := Option.isSome_iff_exists.mp hsome
      simp only [hpath]
      rw [@trace_fuel v fuel fuel' (w.pull v).walk (by omega) (by omega)]

end Walk

namespace Outcome

/-- The identifier of a changed file. -/
def changedId? : Outcome → Option String
  | .changed _ id _ => some id
  | _ => none

/-- The occurrences replaced in a file. -/
def replacements : Outcome → Nat
  | .changed _ _ n => n
  | _ => 0

/-- The diagnostic of a failed file. -/
def errors : Outcome → List Diagnostic
  | .failed _ _ d => [d]
  | _ => []

end Outcome

namespace Run

/-- The errors of a batch in the order they arise: for each file the diagnostics met on the way
to it and then its own failure, and at the end those met after the last file. -/
def batchErrors (pulls : List (List Diagnostic × String)) (outcomes : List Outcome)
    (last : List Diagnostic) : List Diagnostic :=
  (List.zipWith (fun pull o => pull.1 ++ o.errors) pulls outcomes).flatten ++ last

/-- A report with a batch of pulls and the outcomes of their files added. -/
def tally (r : RunReport) (pulls : List (List Diagnostic × String)) (outcomes : List Outcome)
    (last : List Diagnostic) : RunReport :=
  { r with
    scannedFiles := r.scannedFiles + pulls.length
    updatedFiles := r.updatedFiles ++ outcomes.filterMap Outcome.changedId?
    totalReplacements := r.totalReplacements + (outcomes.map Outcome.replacements).sum
    errors := r.errors ++ batchErrors pulls outcomes last }

/-- What a changed outcome writes, read off the volume its file was read on: the location of the
file and the bytes of its new text. -/
def written (v : Volume) (table : Table) : Outcome → Option (List String × List UInt8)
  | .changed path _ _ =>
    match v.find path true, TextFile.read v path with
    | .ok loc, .ok text => some (loc, Text.Utf8.encodeText (table.applyWithStats text).text)
    | _, _ => none
  | _ => none

/-- Recording one more file is tallying it with the ones after it. -/
theorem tally_record (r : RunReport) (errs : List Diagnostic) (path : String)
    (logs : List LogLine) (o : Outcome) (pulls : List (List Diagnostic × String))
    (outcomes : List Outcome) (last : List Diagnostic) :
    tally (record ⟨r.root, r.extension, r.scannedFiles + 1, r.updatedFiles, r.totalReplacements,
        r.errors ++ errs⟩ logs o).1 pulls outcomes last =
      tally r ((errs, path) :: pulls) (o :: outcomes) last := by
  cases o <;>
    simp [tally, record, batchErrors, Outcome.changedId?, Outcome.replacements, Outcome.errors,
      List.filterMap_cons] <;>
    omega

theorem tally_nil (r : RunReport) (last : List Diagnostic) :
    tally r [] [] last = { r with errors := r.errors ++ last } := by
  simp [tally, batchErrors]

end Run

end Reword
