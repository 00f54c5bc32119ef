import Mathlib
import Reword.Proofs.Batch
/-!
# Replacing a file, or changing nothing

`TextFile.writeAtomic` finds the canonical path of the path it is given, writes the new text to
a temporary file beside it, gives that file the permission bits of the one it replaces, and
renames it over that one. When a step fails, the temporary file is removed and the fault
returned.

Where the canonical path names a file or a special file, `writeAtomic_resolved` says what
happens. This module covers the other paths. A path that has no canonical path (a missing file,
a dangling link, a search that never ends) fails before anything is written. A canonical path
that names a directory, the top included, fails at the rename: the temporary file was written
and is then removed (`abandon_written`), which leaves the volume as it was
(`writeAtomic_onto_dir`).

**The law** (`writeAtomic_replaces_file_or_changes_nothing`): when nothing stands at the
temporary path and the host names temporary files plainly (`Host.PlainTemp`), a call that fails
leaves the volume exactly as it was. A call that succeeds puts at the canonical path's location,
where a file or a special file stood, a file with the new bytes and the old node's permission
bits whatever the creation mask took from them, and changes nothing else: every link is kept,
no temporary file is left, and the canonical path is found as before, since a file where a leaf
stood sends no lookup another way (`Volume.SameRoutes`). Over a file this is a rewrite of that
file alone (`Volume.Rewrites`).
-/

namespace Reword

namespace Volume

/-- The path of a reached entry is read up to the directory that holds it. -/
theorem parentOf_reaches {v : Volume} {ds : List String} {name : String} (h : v.Reaches ds name)
    (hlong : Path.tooLong (Path.ofNames (ds ++ [name])) = false) :
    v.parentOf (Path.ofNames (ds ++ [name])) = .ok (.entry ds name false) := by
  rw [parentOf, if_neg (by simp [hlong]), parentWithin_passable h.passable h.plain,
    if_neg (by simp [h.short])]
  rfl

/-- Unlinking the path of a reached file in a directory that may be changed removes it. -/
theorem unlink_reaches {v : Volume} {ds : List String} {name : String} {inode m : Nat}
    {bytes : List UInt8} (h : v.Reaches ds name)
    (hnul : SysFault.nulIn? "unlink" "path" (Path.ofNames (ds ++ [name])) = none)
    (hlong : Path.tooLong (Path.ofNames (ds ++ [name])) = false)
    (hat : v.node? (ds ++ [name]) = some (.file inode m bytes)) (hwritable : v.dirWritable ds = true) :
    v.unlink (Path.ofNames (ds ++ [name])) = .ok (v.update (ds ++ [name]) fun _ => none) := by
  simp [unlink, hnul, parentOf_reaches h hlong, hat, hwritable, Node.kind]

/-- No location at or below a link holds a node other than a link: below a link nothing
stands. -/
theorem not_prefix_of_link {v : Volume} {l loc : List String} {target : String} {n : Node}
    (hl : v.node? l = some (.link target)) (hat : v.node? loc = some n) (hn : n.kind ≠ .link) :
    ¬l <+: loc := by
  rintro ⟨rest, rfl⟩
  cases rest with
  | nil =>
    rw [List.append_nil, hl] at hat
    cases hat
    exact hn rfl
  | cons name more =>
    simp only [node?, Node.get?_append] at hl hat
    rw [hl] at hat
    cases hat

/-- Reading `/name` for writing needs the top searchable. -/
theorem searchable_top_of_writeFile {v v₁ : Volume} {name : String} {bytes : List UInt8}
    {mask mode : Nat} (hwf : v.WellFormed) (hname : Path.Plain name)
    (h : v.writeFile mask (Path.ofNames [name]) bytes mode = .ok v₁) : v.Searchable [] := by
  obtain ⟨m, entries, htop⟩ := hwf.top_dir
  have hnode : v.node? [] = some (.dir m entries) := by simp [node?, htop, Node.get?]
  refine ⟨m, entries, hnode, ?_⟩
  by_contra hns
  have hns' : (Node.dir m entries).searchable = false := by simpa using hns
  have hcomp : Path.components (Path.ofNames ([] ++ [name])) = ([] ++ [name], false) :=
    Path.components_ofNames (by simpa using hname)
  have hparent : ∀ budget, v.parentWithin budget (Path.ofNames [name]) = .error .accessDenied := by
    intro budget
    simp only [List.nil_append] at hcomp
    simp [parentWithin, hcomp, hnode, hns']
  unfold writeFile at h
  split at h
  · cases h
  split at h
  · cases h
  rw [writeFileAt, hparent] at h
  cases h

/-- Renaming a file onto a directory fails. -/
theorem rename_file_onto_dir {v : Volume} {src dst : String} {srcLoc dstLoc : List String}
    {inode m m' : Nat} {bytes : List UInt8} {entries : List (String × Node)}
    (hnul : SysFault.nulIn? "rename" "oldPath" src = none)
    (hnul' : SysFault.nulIn? "rename" "newPath" dst = none)
    (hsrc : v.find src false = .ok srcLoc) (hdst : v.find dst false = .ok dstLoc)
    (hmoving : v.node? srcLoc = some (.file inode m bytes))
    (htarget : v.node? dstLoc = some (.dir m' entries)) : ∃ f, v.rename src dst = .error f := by
  have hne : srcLoc ≠ dstLoc := by
    rintro rfl
    rw [hmoving] at htarget
    cases htarget
  simp only [rename, hnul, hnul', hsrc, hdst, hmoving, htarget, hne, if_false]
  split
  · exact ⟨_, rfl⟩
  · exact ⟨_, rfl⟩

end Volume

namespace TextFile

/-- A temporary file written beside a file and then given up is removed, and the volume is the
one before it was written; the fault that gave it up is kept. -/
theorem abandon_written {v : Volume} {ds : List String} {tname : String} {inode m : Nat}
    {bytes : List UInt8} (hwf : v.WellFormed) (h : v.Reaches ds tname)
    (hnul : SysFault.nulIn? "open" "path" (Path.ofNames (ds ++ [tname])) = none)
    (hlong : Path.tooLong (Path.ofNames (ds ++ [tname])) = false)
    (habsent : v.node? (ds ++ [tname]) = none) (hwritable : v.dirWritable ds = true) (f : SysFault) :
    abandon (v.update (ds ++ [tname]) fun _ => some (.file inode m bytes))
        (Path.ofNames (ds ++ [tname])) f = (v, .error f) := by
  set w := v.update (ds ++ [tname]) fun _ => some (.file inode m bytes) with hw
  have hdir : v.Searchable ds := by simpa using h.passable.searchable_last
  have hreach : w.Reaches ds tname := h.update_beside _ tname
  have hat : w.node? (ds ++ [tname]) = some (.file inode m bytes) := by
    obtain ⟨m', entries, hat', -⟩ := hdir
    exact Volume.node?_update_self _ (by simp) ⟨m', entries, by simpa using hat'⟩
  have hlstat : w.lstat (Path.ofNames (ds ++ [tname])) = .ok (.file inode m bytes) :=
    Volume.lstat_reaches hreach (Volume.nulIn?_eq_none hnul) hlong hat
  have hwritable' : w.dirWritable ds = true := by
    rw [Volume.dirWritable_update_below _ hdir (by simp) (by simp)]
    exact hwritable
  have hunlink := Volume.unlink_reaches hreach (Volume.nulIn?_eq_none hnul) hlong hat hwritable'
  have hback : w.update (ds ++ [tname]) (fun _ => none) = v :=
    Volume.update_none_update_some _ hwf habsent
  simp only [abandon, hlstat, hunlink, hback]

/-- The top of a volume is `/`, and the temporary path beside it is the entry of the top that
the host names for the empty name. -/
theorem tempPath_top (host : Host) (serial : Nat) :
    tempPath host serial (Path.ofNames []) = Path.ofNames [host.tempName "" serial] := by
  have hparent : Path.parent (Path.ofNames []) = Path.ofNames [] := by decide
  have hbase : Path.baseName (Path.ofNames []) = "" := by decide
  rw [tempPath, hparent, hbase, Path.child_ofNames (by simp)]
  rfl

/-- Replacing through a canonical path that leads to a directory fails and changes nothing:
the temporary file is written and given its permission bits, the rename onto the directory
fails, and the temporary file is removed. `ds` and `tname` place the temporary file, `dloc` the
directory as the rename finds it. -/
theorem writeAtomic_onto_dir {host : Host} {v : Volume} {serial : Nat} {p content t : String}
    (ds : List String) {tname : String} (dloc : List String) {m : Nat}
    {entries : List (String × Node)} (hwf : v.WellFormed)
    (hreal : v.realpath p = .ok t) (hstat : v.stat t = .ok (.dir m entries))
    (hnul : SysFault.nulIn? "rename" "newPath" t = none)
    (htemp : tempPath host serial t = Path.ofNames (ds ++ [tname])) (htn : Path.Plain tname)
    (hfree : ∀ n, v.lstat (Path.ofNames (ds ++ [tname])) ≠ .ok n)
    (hds : ∀ v₁, v.writeFile host.umask (Path.ofNames (ds ++ [tname])) (Text.Utf8.encodeText content)
      m = .ok v₁ → v.Passable [] ds)
    (hdst : ∀ x : Node, (v.update (ds ++ [tname]) fun _ => some x).find t false = .ok dloc ∧
      ∃ m' entries', (v.update (ds ++ [tname]) fun _ => some x).node? dloc = some (.dir m' entries')) :
    ∃ f, writeAtomic host v serial p content = (v, .error f) := by
  simp only [writeAtomic, target_of_stat hreal hstat, Node.mode, htemp]
  cases hw : v.writeFile host.umask (Path.ofNames (ds ++ [tname])) (Text.Utf8.encodeText content)
      m with
  | error f =>
    obtain ⟨g, -, hab⟩ := abandon_of_free f hfree
    exact ⟨_, hab⟩
  | ok v₁ =>
    obtain ⟨hreachT, hnulT, hlongT, habsentT, hwritable, rfl⟩ :=
      Volume.writeFile_fresh (hds v₁ hw) htn hfree hw
    have hdir : v.Searchable ds := by simpa using hreachT.passable.searchable_last
    have hparent : ∃ m' entries', v.node? (ds ++ [tname]).dropLast = some (.dir m' entries') := by
      obtain ⟨m', entries', hat', -⟩ := hdir
      exact ⟨m', entries', by simpa using hat'⟩
    let made : Node :=
      .file v.freshInode (Volume.masked host.umask m) (Text.Utf8.encodeText content)
    let placed : Node := .file v.freshInode (m % 0o10000) (Text.Utf8.encodeText content)
    -- the temporary file is found where it was written, and takes the permission bits
    have hmade : (v.update (ds ++ [tname]) fun _ => some made).node? (ds ++ [tname]) = some made :=
      Volume.node?_update_self _ (by simp) hparent
    have hchmod := Volume.chmod_file m (Volume.nulIn?_eq_none hnulT)
      (Volume.find_reaches (hreachT.update_beside (fun _ => some made) tname) hlongT
        (Or.inr fun target => by simp [hmade, made])) hmade
    rw [Volume.update_update_some] at hchmod
    -- the rename onto the directory fails, and the temporary file is removed again
    obtain ⟨hfind, m', entries', hatDir⟩ := hdst placed
    obtain ⟨f, hrename⟩ := Volume.rename_file_onto_dir (Volume.nulIn?_eq_none hnulT) hnul
      (Volume.find_reaches (hreachT.update_beside (fun _ => some placed) tname) hlongT (Or.inl rfl))
      hfind (Volume.node?_update_self _ (by simp) hparent) hatDir
    simp only [made, placed] at hchmod hrename
    refine ⟨f, ?_⟩
    simp only [hchmod, hrename]
    exact abandon_written hwf hreachT hnulT hlongT habsentT hwritable f

/-- Replacing the top directory fails and changes nothing. -/
theorem writeAtomic_top {host : Host} {v : Volume} {serial : Nat} {p content : String}
    (hwf : v.WellFormed) (htemp : host.PlainTemp) (hreal : v.realpath p = .ok (Path.ofNames []))
    (hfree : ∀ n, v.lstat (tempPath host serial (Path.ofNames [])) ≠ .ok n) :
    ∃ f, writeAtomic host v serial p content = (v, .error f) := by
  obtain ⟨m, entries, htop⟩ := hwf.top_dir
  have hnode : v.node? [] = some (.dir m entries) := by simp [Volume.node?, htop, Node.get?]
  have htn : Path.Plain (host.tempName "" serial) := htemp "" serial (by simp)
  have hstat : v.stat (Path.ofNames []) = .ok (.dir m entries) := by
    have hnul : SysFault.nulIn? "stat" "path" (Path.ofNames []) = none := by decide
    simp only [Volume.stat, Volume.lookup, hnul, find_top, hnode]
  rw [tempPath_top] at hfree
  refine writeAtomic_onto_dir [] _ hwf hreal hstat (by decide) (tempPath_top host serial) htn
    (by simpa using hfree)
    (fun v₁ h => Volume.searchable_top_of_writeFile hwf htn (by simpa using h))
    (fun x => ⟨find_top _ false, m, ?_⟩)
  -- the top stays a directory after the temporary file is made in it
  exact Volume.node?_update_of_prefix _ List.nil_prefix (by simp) hnode

/-- Replacing through a canonical path that names a directory entry fails and changes nothing. -/
theorem writeAtomic_entry_dir {host : Host} {v : Volume} {serial : Nat} {p content : String}
    {ds : List String} {name : String} {m : Nat} {entries : List (String × Node)}
    (hwf : v.WellFormed) (htemp : host.PlainTemp)
    (hreal : v.realpath p = .ok (Path.ofNames (ds ++ [name])))
    (hres : v.Resolved (ds ++ [name])) (hat : v.node? (ds ++ [name]) = some (.dir m entries))
    (hfree : ∀ n, v.lstat (tempPath host serial (Path.ofNames (ds ++ [name]))) ≠ .ok n) :
    ∃ f, writeAtomic host v serial p content = (v, .error f) := by
  obtain ⟨hreach, hnul, hlong, -⟩ := hres.of_snoc
  have htn := htemp name serial hreach.plain.2.2.2
  have htempPath := tempPath_ofNames host serial hreach.plain_all
  rw [htempPath] at hfree
  -- the temporary name is not the directory's, which a lookup finds
  have hne : ds ++ [host.tempName name serial] ≠ ds ++ [name] := by
    intro heq
    rw [heq] at hfree
    exact hfree _ (Volume.lstat_reaches hreach hnul hlong hat)
  have hapart : ¬(ds ++ [host.tempName name serial]) <+: ds ++ [name] :=
    fun hp => hne (hp.eq_of_length (by simp))
  have hapart' : ¬(ds ++ [name]) <+: ds ++ [host.tempName name serial] :=
    fun hp => hne (hp.eq_of_length (by simp)).symm
  refine writeAtomic_onto_dir ds (ds ++ [name]) hwf hreal (hres.stat hat)
    (Volume.nulIn?_eq_none hnul) htempPath htn hfree (fun _ _ => hreach.passable)
    (fun x => ⟨?_, m, entries, ?_⟩)
  · exact Volume.find_reaches (hreach.update_beside _ (host.tempName name serial)) hlong
      (Or.inr fun target => by rw [ Volume.node?_update_of_not_prefix _ hapart hapart', hat]; simp)
  · rw [ Volume.node?_update_of_not_prefix _ hapart hapart', hat]

/-- Replacing the text of a file through any path, with nothing at the temporary path: either
the call fails and the volume is as it was, or the path's canonical path names a file or a
special file, which is replaced by a file with the new bytes and the old node's permission
bits. -/
theorem writeAtomic_cases {host : Host} {v : Volume} {serial : Nat} {p content : String}
    (hwf : v.WellFormed) (htemp : host.PlainTemp)
    (hfree : ∀ t, v.realpath p = .ok t → ∀ n, v.lstat (tempPath host serial t) ≠ .ok n) :
    (∃ f, writeAtomic host v serial p content = (v, .error f)) ∨
      ∃ loc n, v.realpath p = .ok (Path.ofNames loc) ∧ v.node? loc = some n ∧
        (n.kind = .file ∨ n.kind = .other) ∧
        writeAtomic host v serial p content =
          (v.update loc fun _ => some (.file v.freshInode (n.mode % 0o10000)
            (Text.Utf8.encodeText content)), .ok ()) := by
  cases hreal : v.realpath p with
  | error f => exact Or.inl ⟨f, by simp [writeAtomic, target, hreal]⟩
  | ok t =>
    have hfree' := hfree t hreal
    obtain ⟨real, rfl, hres⟩ := Volume.realpath_resolved hreal
    -- the canonical path is the top, or an entry holding a leaf or a directory
    rcases List.eq_nil_or_concat real with rfl | ⟨ds, name, rfl⟩
    · exact Or.inl (writeAtomic_top hwf htemp hreal hfree')
    · rw [List.concat_eq_append] at hreal hres hfree' ⊢
      obtain ⟨-, -, -, n, hat, hkind⟩ := hres.of_snoc
      have hleaf : n.kind = .dir ∨ n.kind = .file ∨ n.kind = .other := by
        cases n with
        | dir => exact .inl rfl
        | file => exact .inr (.inl rfl)
        | special => exact .inr (.inr rfl)
        | link => exact absurd rfl hkind
      rcases hleaf with hdir | hleaf
      · obtain ⟨m, entries, rfl⟩ : ∃ m entries, n = .dir m entries := by
          cases n <;> first | exact ⟨_, _, rfl⟩ | cases hdir
        exact Or.inl (writeAtomic_entry_dir hwf htemp hreal hres hat hfree')
      · rcases writeAtomic_effect hwf htemp hreal (hres.find true) hat hleaf hfree' with h | h
        · exact Or.inl h
        · exact Or.inr ⟨ds ++ [name], n, rfl, hat, hleaf, h⟩

/-- Replacing the text of a file atomically, with nothing standing at the temporary path:
if the call fails, the volume is exactly as it was; if it succeeds, the path's canonical path
named a file or a special file, the location now holds a file with the new bytes and the old
node's permission bits and nothing else changed, the canonical path still names it, a file is
rewritten alone (`Volume.Rewrites`), every link is as it was, and no temporary file is left. -/
theorem writeAtomic_replaces_file_or_changes_nothing {host : Host} {v : Volume} {serial : Nat}
    {p content : String} (hwf : v.WellFormed) (htemp : host.PlainTemp)
    (hfree : ∀ t, v.realpath p = .ok t → ∀ n, v.lstat (tempPath host serial t) ≠ .ok n) :
    (∀ f, (writeAtomic host v serial p content).2 = .error f →
      (writeAtomic host v serial p content).1 = v) ∧
    ((writeAtomic host v serial p content).2 = .ok () →
      ∃ loc n, v.realpath p = .ok (Path.ofNames loc) ∧ v.node? loc = some n ∧
        (n.kind = .file ∨ n.kind = .other) ∧
        (writeAtomic host v serial p content).1 = (v.update loc fun _ =>
          some (.file v.freshInode (n.mode % 0o10000) (Text.Utf8.encodeText content))) ∧
        (writeAtomic host v serial p content).1.realpath p = .ok (Path.ofNames loc) ∧
        (n.kind = .file →
          v.Rewrites (writeAtomic host v serial p content).1 [(loc, Text.Utf8.encodeText content)]) ∧
        (∀ l target, v.node? l = some (.link target) →
          (writeAtomic host v serial p content).1.node? l = some (.link target)) ∧
        ∀ n, (writeAtomic host v serial p content).1.lstat
          (tempPath host serial (Path.ofNames loc)) ≠ .ok n) := by
  rcases writeAtomic_cases hwf htemp hfree with ⟨f, h⟩ | ⟨loc, n, hreal, hat, hleaf, h⟩
  · rw [h]
    refine ⟨fun _ _ => rfl, fun hok => ?_⟩
    simp at hok
  · rw [h]
    let placed : Node := .file v.freshInode (n.mode % 0o10000) (Text.Utf8.encodeText content)
    have hnotdir : n.kind ≠ .dir := Node.kind_ne_dir_of_leaf hleaf
    -- a leaf stood at the location and one stands there again: no route changes, nor the count
    -- of nodes, so every lookup and canonical path reads as before
    have hroutes := Volume.sameRoutes_update_leaf hwf hat hleaf (x := placed) (.inl rfl)
    have hcount := (Volume.locations_update_leaf hwf hat hnotdir (x := placed)
      (by simp [placed, Node.kind])).2
    refine ⟨fun _ hf => absurd hf (by simp), fun _ =>
      ⟨loc, n, hreal, hat, hleaf, rfl, ?_, fun hfile => ?_, fun l target hl => ?_, fun m hm => ?_⟩⟩
    · rw [Volume.realpath_congr hroutes hcount, hreal]
    · obtain ⟨inode, m, bytes, rfl⟩ : ∃ inode m bytes, n = .file inode m bytes := by
        cases n <;> simp [Node.kind] at hfile
        exact ⟨_, _, _, rfl⟩
      exact Volume.Rewrites.single hwf hat
    · -- a link stands neither above nor below a leaf, so the write leaves it
      have hne : loc ≠ l := by
        rintro rfl
        rw [hat] at hl
        cases hl
        simp [Node.kind] at hleaf
      have hbelow : ¬loc <+: l := Volume.not_prefix_of_not_dir hat hnotdir (by simp [hl]) hne
      have habove : ¬l <+: loc :=
        Volume.not_prefix_of_link hl hat (by rcases hleaf with hk | hk <;> rw [hk] <;> decide)
      rw [ Volume.node?_update_of_not_prefix _ hbelow habove]
      exact hl
    · -- what the temporary path finds after the write it found before
      obtain ⟨m', hm', -⟩ := Volume.lookup_eq_ok_congr hroutes.symm hm
      exact hfree _ hreal m' hm'

/-- One file replaced through its path with the standard host: the volume holds `/a.kt` and
nothing at `/.a.kt.7.1.tmp`. -/
theorem writeAtomic_replaces_one_file :
    let host := Host.standard "/" 7
    let v : Volume := ⟨.dir 0o755 [("a.kt", .file 1 0o4644 [0x71])]⟩
    v.WellFormed ∧ host.PlainTemp ∧
      (∀ t, v.realpath "/a.kt" = .ok t → ∀ n, v.lstat (tempPath host 1 t) ≠ .ok n) ∧
      (∀ f, (writeAtomic host v 1 "/a.kt" "r").2 = .error f →
        (writeAtomic host v 1 "/a.kt" "r").1 = v) ∧
      ((writeAtomic host v 1 "/a.kt" "r").2 = .ok () →
        ∃ loc n, v.realpath "/a.kt" = .ok (Path.ofNames loc) ∧ v.node? loc = some n ∧
          (n.kind = .file ∨ n.kind = .other) ∧
          (writeAtomic host v 1 "/a.kt" "r").1 = (v.update loc fun _ =>
            some (.file v.freshInode (n.mode % 0o10000) (Text.Utf8.encodeText "r"))) ∧
          (writeAtomic host v 1 "/a.kt" "r").1.realpath "/a.kt" = .ok (Path.ofNames loc) ∧
          (n.kind = .file →
            v.Rewrites (writeAtomic host v 1 "/a.kt" "r").1 [(loc, Text.Utf8.encodeText "r")]) ∧
          (∀ l target, v.node? l = some (.link target) →
            (writeAtomic host v 1 "/a.kt" "r").1.node? l = some (.link target)) ∧
          ∀ n, (writeAtomic host v 1 "/a.kt" "r").1.lstat
            (tempPath host 1 (Path.ofNames loc)) ≠ .ok n) := by
  intro host v
  have hwf : v.WellFormed := ⟨⟨_, _, rfl⟩, by decide⟩
  have htemp : host.PlainTemp := Host.standard_plainTemp "/" 7
  have hfree : ∀ t, v.realpath "/a.kt" = .ok t → ∀ n, v.lstat (tempPath host 1 t) ≠ .ok n := by
    intro t ht n hn
    have hreal : v.realpath "/a.kt" = .ok "/a.kt" := by decide
    rw [hreal, Except.ok.injEq] at ht
    subst ht
    have hmissing : (v.lstat (tempPath host 1 "/a.kt")).toBool = false := by decide
    rw [hn] at hmissing
    cases hmissing
  exact ⟨hwf, htemp, hfree, writeAtomic_replaces_file_or_changes_nothing hwf htemp hfree⟩

end TextFile

end Reword
