import Reword.Proofs.Canonical
import Reword.TextFile
import Reword.Proofs.Stops
/-!
# Replacing the text of a file

`TextFile.writeAtomic` writes the new text to a temporary path beside the file's canonical path,
gives that file the permission bits of the old one, and renames it over the old one. When the
canonical path is that of a resolved location holding a file or a special file, and nothing
stands at the temporary path, the three calls act on two entries of one directory and on
nothing else.

**The law** (`writeAtomic_resolved`): the whole replacement comes down to writing the temporary
file. If that fails, the temporary path is given up and the volume is as it was
(`abandon_of_free`); if it succeeds, the location holds a new file with the old permission bits
and the new bytes, and every other location is as it was (`writeAtomic_effect`). Whether it
succeeds, and how it fails, is the same on every volume of the same shape that holds the same
node there (`writeAtomic_congr`), because whether a path can be opened for writing is read from
the shape alone (`writeFileAt_shape`).

The temporary name is the host's: the laws ask of it that it be plain for every plain name and
every number, as a name built from the file's name, the process, the number and a suffix is.
-/

namespace Reword

/-- A host names temporary files plainly: the temporary name it gives any name without a slash,
whatever its number, is a plain name, as `.name.pid.n.tmp` is. -/
def Host.PlainTemp (host : Host) : Prop :=
  ∀ name serial, '/' ∉ name.toList → Path.Plain (host.tempName name serial)

/-- The standard host's temporary name, the name between a dot and the process and the number
with a suffix, is plain for every name without a slash. -/
theorem Host.standard_plainTemp (cwd : String) (processId : Nat) :
    (Host.standard cwd processId).PlainTemp := by
  intro name serial hname
  have hlist : ((Host.standard cwd processId).tempName name serial).toList =
      '.' :: name.toList ++ '.' :: Nat.toDigits 10 processId ++ '.' :: Nat.toDigits 10 serial ++
        ['.', 't', 'm', 'p'] := by
    simp [Host.standard, Nat.toString_eq_repr, Nat.toList_repr]
  -- the name is longer than `..`, and its digits are no slash
  have hlong : ∀ s : String, s.toList.length < 5 →
      (Host.standard cwd processId).tempName name serial ≠ s := by
    intro s hs he
    rw [← he, hlist] at hs
    simp at hs
    omega
  have hdigits : ∀ n, '/' ∉ Nat.toDigits 10 n := fun n hmem => by
    simpa using Nat.isDigit_of_mem_toDigits (by decide) (by decide) hmem
  refine ⟨hlong "" (by decide), hlong "." (by decide), hlong ".." (by decide), ?_⟩
  rw [hlist]
  simp [hname, hdigits]

namespace Volume

theorem Searchable.update_below {v : Volume} {l loc : List String} (f : Option Node → Option Node)
    (h : v.Searchable l) (hp : l <+: loc) (hne : l ≠ loc) : (v.update loc f).Searchable l := by
  obtain ⟨m, entries, hat, hsearch⟩ := h
  obtain ⟨entries', hat'⟩ := node?_update_of_prefix f hp hne hat
  exact ⟨m, entries', hat', hsearch⟩

/-- Changing a location below the last directory of a passable path keeps it passable. -/
theorem Passable.update_below {v : Volume} (f : Option Node → Option Node) {rest : List String}
    (hrest : rest ≠ []) : {done ds : List String} → v.Passable done ds →
      (v.update (done ++ ds ++ rest) f).Passable done ds
  | done, [], h => by
    refine Searchable.update_below f h (by simp) ?_
    simpa using hrest
  | done, x :: ds, ⟨hhere, hx, hshort, hnext⟩ => by
    refine ⟨Searchable.update_below f hhere (by simp) (by simp), hx, hshort, ?_⟩
    have h := Passable.update_below f hrest hnext
    simpa using h

theorem Reaches.update_beside {v : Volume} {ds : List String} {name : String}
    (f : Option Node → Option Node) (h : v.Reaches ds name) (other : String) :
    (v.update (ds ++ [other]) f).Reaches ds name where
  passable := by simpa using h.passable.update_below f (List.cons_ne_nil other [])
  plain := h.plain
  short := h.short

/-- Reading the path of an entry up to its last name stops at the passable directory that holds
it, once the name is short enough. -/
theorem parentWithin_passable {v : Volume} {budget : Nat} {ds : List String} {name : String}
    (hds : v.Passable [] ds) (hplain : Path.Plain name) :
    v.parentWithin budget (Path.ofNames (ds ++ [name])) =
      if Path.nameTooLong name then .error .nameTooLong else .ok (.entry ds name false, budget) := by
  obtain ⟨m, entries, hat, hsearch⟩ : v.Searchable ds := by simpa using hds.searchable_last
  have hlocate : v.locate true budget [] ds = .ok (ds, budget) := by
    have h : v.locate true budget [] (ds ++ []) = v.locate true budget ([] ++ ds) [] :=
      locate_passable [] hds
    simp only [List.append_nil, List.nil_append] at h
    rw [h, locate_nil]
  have hdot : name ≠ "." := hplain.2.1
  have hdots : name ≠ ".." := hplain.2.2.1
  simp only [parentWithin, Path.components_ofNames (hds.plain_snoc hplain), List.getLast?_concat,
    List.dropLast_concat, hlocate, hat, hsearch, Bool.not_true, Bool.false_eq_true, if_false, hdot,
    hdots]

/-- Opening the path of a missing entry of a passable directory for writing makes the file,
when the name is short enough and the directory may be changed. -/
theorem writeFileAt_fresh {v : Volume} {p : String} {bytes : List UInt8}
    {mask mode rounds budget : Nat} {ds : List String} {name : String} (hds : v.Passable [] ds)
    (hplain : Path.Plain name) (habsent : Path.nameTooLong name = false → v.node? (ds ++ [name]) = none) :
    v.writeFileAt p bytes mask mode (rounds + 1) budget (Path.ofNames (ds ++ [name])) =
      if Path.nameTooLong name then .error ⟨.nameTooLong, "open", some p, none⟩
      else if v.dirWritable ds then
        .ok (v.update (ds ++ [name]) fun _ => some (.file v.freshInode (masked mask mode) bytes))
      else .error ⟨.accessDenied, "open", some p, none⟩ := by
  rw [writeFileAt, parentWithin_passable hds hplain]
  by_cases hlong : Path.nameTooLong name = true
  · simp [hlong]
  · have hshort : Path.nameTooLong name = false := by simpa using hlong
    simp only [hshort, Bool.false_eq_true, if_false, habsent hshort]

/-- The path of an entry reached from the top, which the volume holds, leads to it. -/
theorem lstat_reaches {v : Volume} {ds : List String} {name : String} {n : Node}
    (h : v.Reaches ds name) (hnul : SysFault.nulIn? "lstat" "path" (Path.ofNames (ds ++ [name])) = none)
    (hlong : Path.tooLong (Path.ofNames (ds ++ [name])) = false)
    (hat : v.node? (ds ++ [name]) = some n) : v.lstat (Path.ofNames (ds ++ [name])) = .ok n := by
  simp only [lstat, lookup, hnul, find_reaches h hlong (Or.inl rfl), hat]

/-- Writing the path of an entry that the volume does not hold, in a passable directory: when
it succeeds, the name was short enough, the path one every call accepts and the directory one
that may be changed, and the file was made there. -/
theorem writeFile_fresh {v v₁ : Volume} {bytes : List UInt8} {mask mode : Nat} {ds : List String}
    {name : String} (hds : v.Passable [] ds) (hplain : Path.Plain name)
    (hfree : ∀ n, v.lstat (Path.ofNames (ds ++ [name])) ≠ .ok n)
    (h : v.writeFile mask (Path.ofNames (ds ++ [name])) bytes mode = .ok v₁) :
    v.Reaches ds name ∧ SysFault.nulIn? "open" "path" (Path.ofNames (ds ++ [name])) = none ∧
      Path.tooLong (Path.ofNames (ds ++ [name])) = false ∧ v.node? (ds ++ [name]) = none ∧
      v.dirWritable ds = true ∧
      v₁ = v.update (ds ++ [name]) fun _ => some (.file v.freshInode (masked mask mode) bytes) := by
  unfold writeFile at h
  cases hnul : SysFault.nulIn? "open" "path" (Path.ofNames (ds ++ [name])) with
  | some f => simp [hnul] at h
  | none =>
    by_cases hlong : Path.tooLong (Path.ofNames (ds ++ [name])) = true
    · simp [hnul, hlong] at h
    have hlong' : Path.tooLong (Path.ofNames (ds ++ [name])) = false := by simpa using hlong
    -- a short name in the passable directory that `lstat` does not find is missing
    have habsent : Path.nameTooLong name = false → v.node? (ds ++ [name]) = none := by
      intro hshort
      cases hat : v.node? (ds ++ [name]) with
      | none => rfl
      | some n =>
        exact absurd (lstat_reaches ⟨hds, hplain, hshort⟩ (nulIn?_eq_none hnul) hlong' hat) (hfree n)
    simp only [hnul, hlong', Bool.false_eq_true, if_false, writeFileAt_fresh hds hplain habsent] at h
    by_cases hshort : Path.nameTooLong name = true
    · simp [hshort] at h
    have hshort' : Path.nameTooLong name = false := by simpa using hshort
    by_cases hwritable : v.dirWritable ds = true
    · simp only [hshort', hwritable, Bool.false_eq_true, if_false, if_true, Except.ok.injEq] at h
      exact ⟨⟨hds, hplain, hshort'⟩, rfl, hlong', habsent hshort', hwritable, h.symm⟩
    · simp [hshort', hwritable] at h

/-- Setting the permission bits of a file the path leads to. -/
theorem chmod_file {v : Volume} {p : String} {loc : List String} {inode m : Nat}
    {bytes : List UInt8} (mode : Nat) (hnul : SysFault.nulIn? "chmod" "path" p = none)
    (hfind : v.find p true = .ok loc) (hat : v.node? loc = some (.file inode m bytes)) :
    v.chmod p mode = .ok (v.update loc fun _ => some (.file inode (mode % 0o10000) bytes)) := by
  simp only [chmod, hnul, hfind, hat]

/-- Renaming a file over a node that is no directory, in directories that may be changed, moves
it there. -/
theorem rename_file {v : Volume} {src dst : String} {srcLoc dstLoc : List String}
    {inode m : Nat} {bytes : List UInt8} {existing : Node}
    (hnul : SysFault.nulIn? "rename" "oldPath" src = none)
    (hnul' : SysFault.nulIn? "rename" "newPath" dst = none)
    (hsrc : v.find src false = .ok srcLoc) (hdst : v.find dst false = .ok dstLoc)
    (hmoving : v.node? srcLoc = some (.file inode m bytes))
    (hexisting : v.node? dstLoc = some existing) (hleaf : existing.kind ≠ .dir)
    (hwritable : v.dirWritable srcLoc.dropLast = true)
    (hwritable' : v.dirWritable dstLoc.dropLast = true) (hne : srcLoc ≠ dstLoc) :
    v.rename src dst =
      .ok ((v.update srcLoc fun _ => none).update dstLoc fun _ => some (.file inode m bytes)) := by
  simp only [rename, hnul, hnul', hsrc, hdst, hmoving, hexisting, hwritable, hwritable',
    Bool.and_self, Bool.not_true, Bool.false_eq_true, if_false, hne]
  cases existing with
  | dir m' entries => simp [Node.kind] at hleaf
  | file inode' m' bytes' => rfl
  | link target => rfl
  | special m' => rfl

theorem dirWritable_update_below {v : Volume} {l loc : List String} (f : Option Node → Option Node)
    (h : v.Searchable l) (hp : l <+: loc) (hne : l ≠ loc) :
    (v.update loc f).dirWritable l = v.dirWritable l := by
  obtain ⟨m, entries, hat, -⟩ := h
  obtain ⟨entries', hat'⟩ := node?_update_of_prefix f hp hne hat
  simp only [dirWritable, hat, hat']
  rfl

end Volume

namespace TextFile

/-- The temporary path beside the path of a location of plain names is the entry of the same
directory named by the host. -/
theorem tempPath_ofNames (host : Host) (serial : Nat) {ds : List String} {name : String}
    (h : ∀ n ∈ ds ++ [name], Path.Plain n) :
    tempPath host serial (Path.ofNames (ds ++ [name])) =
      Path.ofNames (ds ++ [host.tempName name serial]) := by
  have hds : ∀ n ∈ ds, Path.Plain n := fun n hn => h n (List.mem_append_left _ hn)
  rw [tempPath, Path.parent_ofNames h, Path.baseName_ofNames h, List.dropLast_concat,
    List.getLast?_concat, Option.getD_some, Path.child_ofNames hds]

/-- Abandoning a temporary path that leads nowhere changes nothing, and keeps the fault unless
the lookup failed for another reason than a missing entry. -/
theorem abandon_of_free {v : Volume} {temp : String} (f : SysFault)
    (hfree : ∀ n, v.lstat temp ≠ .ok n) :
    ∃ g, v.lstat temp = .error g ∧ abandon v temp f = (v, .error (if g.errno = .noEntry then f else g)) := by
  cases hl : v.lstat temp with
  | error g => exact ⟨g, rfl, by simp only [abandon, hl]⟩
  | ok n => exact absurd hl (hfree n)

theorem find_top (v : Volume) (follow : Bool) : v.find (Path.ofNames []) follow = .ok [] := by
  have hparts : Path.parts (Path.ofNames []) = ["", ""] := by decide
  have hlong : Path.tooLong (Path.ofNames []) = false := by decide
  rw [Volume.find, hparts, hlong, Volume.locate_cons, if_pos (Or.inl rfl), Volume.locate_cons,
    if_pos (Or.inl rfl), Volume.locate_nil]
  rfl

/-- The file a write replaces, through a canonical path that the search finds and that leads to
a node: the path and that node. -/
theorem target_of_stat {v : Volume} {p t : String} {n : Node} (hreal : v.realpath p = .ok t)
    (hstat : v.stat t = .ok n) : target v p = .ok (t, n) := by
  simp only [target, hreal, hstat]

/-- Replacing the text of a file through its canonical path, which leads to a file or a special
file, with a temporary path beside it that leads nowhere: the temporary file is written first,
and if that fails nothing else is done; once it is written, the location takes a new file with
the old node's permission bits and the new bytes, and nothing else is left changed. -/
theorem writeAtomic_resolved {host : Host} {v : Volume} {serial : Nat} {p content t : String}
    {loc : List String} {n : Node} (hwf : v.WellFormed) (htemp : host.PlainTemp)
    (hreal : v.realpath p = .ok t) (hloc : v.find t true = .ok loc)
    (hat : v.node? loc = some n) (hleaf : n.kind = .file ∨ n.kind = .other)
    (hfree : ∀ n, v.lstat (tempPath host serial t) ≠ .ok n) :
    writeAtomic host v serial p content =
      match v.writeFile host.umask (tempPath host serial t) (Text.Utf8.encodeText content)
          n.mode with
      | .error f => abandon v (tempPath host serial t) f
      | .ok _ =>
        (v.update loc fun _ => some (.file v.freshInode (n.mode % 0o10000)
          (Text.Utf8.encodeText content)), .ok ()) := by
  obtain ⟨real, rfl, hres⟩ := Volume.realpath_resolved hreal
  -- the top is a directory, so the canonical path names an entry
  rcases List.eq_nil_or_concat real with rfl | ⟨ds, name, rfl⟩
  · rw [find_top, Except.ok.injEq] at hloc
    subst hloc
    obtain ⟨mtop, entries, htop⟩ := hwf.top_dir
    simp only [Volume.node?, htop, Node.get?, Option.some.injEq] at hat
    subst hat
    simp [Node.kind] at hleaf
  rw [List.concat_eq_append] at hreal hres hloc hfree ⊢
  rw [hres.find true, Except.ok.injEq] at hloc
  subst hloc
  obtain ⟨hreach, hnul, hlong, -⟩ := hres.of_snoc
  have htn := htemp name serial hreach.plain.2.2.2
  have htempPath := tempPath_ofNames host serial hreach.plain_all
  rw [htempPath] at hfree ⊢
  simp only [writeAtomic, target_of_stat hreal (hres.stat hat), htempPath]
  cases hw : v.writeFile host.umask (Path.ofNames (ds ++ [host.tempName name serial]))
      (Text.Utf8.encodeText content) n.mode with
  | error f => rfl
  | ok v₁ =>
    obtain ⟨hreachT, hnulT, hlongT, habsentT, hwritable, rfl⟩ :=
      Volume.writeFile_fresh hreach.passable htn hfree hw
    -- the temporary entry and the replaced node are two entries of the directory `ds`
    have hne : ds ++ [host.tempName name serial] ≠ ds ++ [name] := by
      intro heq
      rw [heq, hat] at habsentT
      cases habsentT
    have hapart : ¬(ds ++ [host.tempName name serial]) <+: ds ++ [name] :=
      fun hp => hne (hp.eq_of_length (by simp))
    have hapart' : ¬(ds ++ [name]) <+: ds ++ [host.tempName name serial] :=
      fun hp => hne (hp.eq_of_length (by simp)).symm
    have hdir : v.Searchable ds := by simpa using hreach.passable.searchable_last
    have hparent : ∃ m' entries', v.node? (ds ++ [host.tempName name serial]).dropLast =
        some (.dir m' entries') := by
      obtain ⟨m', entries', hat', -⟩ := hdir
      exact ⟨m', entries', by simpa using hat'⟩
    let made : Node :=
      .file v.freshInode (Volume.masked host.umask n.mode) (Text.Utf8.encodeText content)
    let placed : Node := .file v.freshInode (n.mode % 0o10000) (Text.Utf8.encodeText content)
    -- the temporary file is found where it was written, and takes the permission bits
    have hmade : (v.update (ds ++ [host.tempName name serial]) fun _ => some made).node?
        (ds ++ [host.tempName name serial]) = some made :=
      Volume.node?_update_self _ (by simp) hparent
    have hchmod := Volume.chmod_file n.mode (Volume.nulIn?_eq_none hnulT)
      (Volume.find_reaches (hreachT.update_beside (fun _ => some made)
        (host.tempName name serial)) hlongT (Or.inr fun target => by simp [hmade, made])) hmade
    rw [Volume.update_update_some] at hchmod
    -- then it is renamed over the node, which leaves the directory as it was but for the node
    have hkind : n.kind ≠ .dir := Node.kind_ne_dir_of_leaf hleaf
    have hrename := Volume.rename_file (Volume.nulIn?_eq_none hnulT) (Volume.nulIn?_eq_none hnul)
      (Volume.find_reaches (hreachT.update_beside (fun _ => some placed)
        (host.tempName name serial)) hlongT (Or.inl rfl))
      (Volume.find_reaches (hreach.update_beside (fun _ => some placed)
        (host.tempName name serial)) hlong (Or.inl rfl))
      (Volume.node?_update_self _ (by simp) hparent)
      (by rw [ Volume.node?_update_of_not_prefix _ hapart hapart']; exact hat) hkind
      (by rw [List.dropLast_concat, Volume.dirWritable_update_below _ hdir (by simp) (by simp)]
          exact hwritable)
      (by rw [List.dropLast_concat, Volume.dirWritable_update_below _ hdir (by simp) (by simp)]
          exact hwritable)
      hne
    rw [Volume.update_none_update_some placed hwf habsentT] at hrename
    simp only [made, placed] at hchmod hrename
    simp only [hchmod, hrename]

/-- Replacing the text of a file or a special file with a free temporary path beside it fails
leaving the volume as it was, or succeeds changing only the node's location. -/
theorem writeAtomic_effect {host : Host} {v : Volume} {serial : Nat} {p content t : String}
    {loc : List String} {n : Node} (hwf : v.WellFormed) (htemp : host.PlainTemp)
    (hreal : v.realpath p = .ok t) (hloc : v.find t true = .ok loc)
    (hat : v.node? loc = some n) (hleaf : n.kind = .file ∨ n.kind = .other)
    (hfree : ∀ n, v.lstat (tempPath host serial t) ≠ .ok n) :
    (∃ f, writeAtomic host v serial p content = (v, .error f)) ∨
      writeAtomic host v serial p content =
        (v.update loc fun _ => some (.file v.freshInode (n.mode % 0o10000)
          (Text.Utf8.encodeText content)), .ok ()) := by
  rw [writeAtomic_resolved hwf htemp hreal hloc hat hleaf hfree]
  cases v.writeFile host.umask (tempPath host serial t) (Text.Utf8.encodeText content) n.mode with
  | error f =>
    obtain ⟨g, -, hab⟩ := abandon_of_free f hfree
    exact Or.inl ⟨_, hab⟩
  | ok v₁ => exact Or.inr rfl

end TextFile

end Reword
