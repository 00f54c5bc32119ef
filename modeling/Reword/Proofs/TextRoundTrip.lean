import Mathlib
import Reword.Proofs.Utf8Codec
import Reword.Proofs.AtomicReplace
import Reword.Proofs.FileOutcome
/-!
# Reading a file back after writing it

Text goes to a file through `TextFile.writeAtomic`, which writes the UTF-8 bytes of the text to a
temporary file that takes the old file's permission bits and then replaces it, and comes back
through `TextFile.read`, which reads the bytes and decodes them strictly.

**The law** (`read_writeAtomic_round_trip`) has two halves.

* Writing, then reading through the same path: the file holds the UTF-8 bytes of the text
  (`readFile_writeAtomic`), and a text with no lone surrogate, of no more bytes than a string
  may hold units, is read back as the same code units, a leading byte order mark included.
  Three things are assumed. The file could be read
  before: the new file keeps the old one's bits, so a file its owner may write but not read is
  replaced and still cannot be read (`write_only_file_unreadable_after_write`). The path leads
  to the file its canonical path names: the canonical path is worked out from the text of the
  path, `..` included, so behind a link to a directory it may name another file, and that one is
  replaced. And, as for the write alone, nothing stands at the temporary path.
* Reading any file whose bytes can be read: a text comes back exactly when the bytes are
  well-formed UTF-8 and a string may hold that many, and it is written out as the same bytes.
  Ill-formed bytes give the fault of undecodable data, and substituting into the file fails with
  READ002; well-formed bytes too many for a string give the engine's refusal of too long a
  string, and substituting fails with READ001; neither changes anything.

Both halves rest on the codec (`Reword.Proofs.Utf8Codec`); the file system side is that a file
replaced in place reads as its new bytes through any path that led to it
(`Volume.readFile_update_file`).
-/

namespace Reword

namespace Volume

/-- Reading a file succeeds when the path holds no NUL and leads to a file the owner may read,
of no more bytes than one buffer holds. -/
theorem readFile_eq_ok {v : Volume} {p : String} {bytes : List UInt8} :
    v.readFile p = .ok bytes ↔ SysFault.nulIn? "open" "path" p = none ∧
      ∃ loc inode m, v.find p true = .ok loc ∧ v.node? loc = some (.file inode m bytes) ∧
        m / 0o400 % 2 = 1 ∧ bytes.length ≤ bufferMax := by
  constructor
  · intro h
    unfold readFile at h
    cases hl : v.lookup "open" p true with
    | error f => simp [hl] at h
    | ok n =>
      obtain ⟨loc, hf, hat⟩ := lookup_eq_ok_find hl
      have hnul : SysFault.nulIn? "open" "path" p = none := by
        unfold lookup at hl
        cases hn : SysFault.nulIn? "open" "path" p with
        | none => rfl
        | some f => simp [hn] at hl
      simp only [hl] at h
      -- only a file is read, only with the owner's read bit, and only if one buffer holds it
      cases n with
      | file inode m bytes' =>
        by_cases hr : m / 0o400 % 2 = 1
        · simp only [Node.readable, Node.mode, hr, decide_true, Bool.not_true, Bool.false_eq_true,
            if_false] at h
          by_cases hlen : bytes'.length > bufferMax
          · simp [hlen] at h
          · simp only [hlen, if_false, Except.ok.injEq] at h
            subst h
            exact ⟨hnul, loc, inode, m, hf, hat, hr, by omega⟩
        · simp [Node.readable, Node.mode, hr] at h
      | dir m entries => split at h <;> cases h
      | link target => split at h <;> cases h
      | special m => split at h <;> cases h
  · rintro ⟨hnul, loc, inode, m, hf, hat, hr, hlen⟩
    have hlen' : ¬bytes.length > bufferMax := by omega
    simp [readFile, lookup, hnul, hf, hat, Node.readable, Node.mode, hr, hlen']

/-- A file replaced with new bytes and its own permission bits reads as the new bytes through a
path that leads to it and could read it before. -/
theorem readFile_update_file {v : Volume} {p : String} {loc : List String} {inode m inode' : Nat}
    {bytes bytes' : List UInt8} (hwf : v.WellFormed) (hfind : v.find p true = .ok loc)
    (hat : v.node? loc = some (.file inode m bytes)) (hread : ∃ b, v.readFile p = .ok b)
    (hlen : bytes'.length ≤ bufferMax) :
    (v.update loc fun _ => some (.file inode' (m % 0o10000) bytes')).readFile p = .ok bytes' := by
  obtain ⟨b, hb⟩ := hread
  obtain ⟨hnul, loc₀, inode₀, m₀, hf₀, hat₀, hr, -⟩ := readFile_eq_ok.1 hb
  rw [hfind, Except.ok.injEq] at hf₀
  subst hf₀
  rw [hat, Option.some.injEq, Node.file.injEq] at hat₀
  obtain ⟨rfl, rfl, rfl⟩ := hat₀
  have hshape : (v.update loc fun _ => some (.file inode' (m % 0o10000) bytes')).shape = v.shape :=
    shape_update_some hwf hat (by simp)
  refine readFile_eq_ok.2 ⟨hnul, loc, inode', m % 0o10000, ?_, node?_update_file hwf hat _, ?_,
    hlen⟩
  · rw [← find_shape, hshape, find_shape, hfind]
  · -- the permission bits kept are the low twelve, which hold the owner's read bit
    omega

end Volume

namespace TextFile

/-- Text read from a file whose bytes are read is their strict decoding, when a string may hold
that many. -/
theorem read_eq_ok_iff {v : Volume} {p s : String} {bytes : List UInt8}
    (h : v.readFile p = .ok bytes) :
    read v p = .ok s ↔ Text.Utf8.decode? bytes = some s ∧ bytes.length ≤ Text.maxUnits := by
  simp only [read, h]
  cases hd : Text.Utf8.decode? bytes with
  | none => simp
  | some t =>
    by_cases hlen : Text.maxUnits < bytes.length
    · simp only [gt_iff_lt, hlen, if_true, reduceCtorEq, false_iff, not_and]
      intro _
      omega
    · simp only [gt_iff_lt, hlen, if_false, Except.ok.injEq, Option.some.injEq]
      exact ⟨fun heq => ⟨heq, by omega⟩, And.left⟩

/-- Well-formed bytes of more units than a string may hold are refused as too long a text. -/
theorem read_of_too_long {v : Volume} {p : String} {bytes : List UInt8} {s : String}
    (h : v.readFile p = .ok bytes) (hd : Text.Utf8.decode? bytes = some s)
    (hlen : Text.maxUnits < bytes.length) : read v p = .error .stringTooLong := by
  simp only [read, h, hd, gt_iff_lt, hlen, if_true]

theorem read_of_decode?_none {v : Volume} {p : String} {bytes : List UInt8}
    (h : v.readFile p = .ok bytes) (hnone : Text.Utf8.decode? bytes = none) :
    read v p = .error .undecodable := by
  simp only [read, h, hnone]

/-- Replacing a file's text and reading the file back through the same path gives the bytes of
the text, where the path leads to the file its canonical path names and could read it before:
the new file keeps the old one's permission bits. -/
theorem readFile_writeAtomic {host : Host} {v : Volume} {serial : Nat} {p content : String}
    (hwf : v.WellFormed) (htemp : host.PlainTemp)
    (hfree : ∀ t, v.realpath p = .ok t → ∀ n, v.lstat (tempPath host serial t) ≠ .ok n)
    (hcanon : ∀ t, v.realpath p = .ok t → v.find t true = v.find p true)
    (hread : ∃ bytes, v.readFile p = .ok bytes)
    (hlen : (Text.Utf8.encodeText content).length ≤ Volume.bufferMax)
    (hok : (writeAtomic host v serial p content).2 = .ok ()) :
    (writeAtomic host v serial p content).1.readFile p = .ok (Text.Utf8.encodeText content) := by
  obtain ⟨b, hb⟩ := hread
  obtain ⟨-, loc, inode, m, hf, hat, -⟩ := Volume.readFile_eq_ok.1 hb
  -- a call that succeeds found the canonical path, which leads to the file read before
  cases hreal : v.realpath p with
  | error f => simp [writeAtomic, target, hreal] at hok
  | ok t =>
    have hloc : v.find t true = .ok loc := by rw [hcanon t hreal, hf]
    rcases writeAtomic_effect hwf htemp hreal hloc hat (.inl rfl) (hfree t hreal) with
        ⟨f, he⟩ | he
    · rw [he] at hok
      cases hok
    · rw [he]
      exact Volume.readFile_update_file hwf hf hat ⟨b, hb⟩ hlen

/-- A string holds fewer units than one buffer holds bytes. -/
theorem maxUnits_lt_bufferMax : Text.maxUnits < Volume.bufferMax := by decide

/-- Text written to a file reads back as written, and reading decodes exactly well-formed
UTF-8 of no more units than a string may hold. A text with no lone surrogate and short enough
for a string, written through a path to a file that could be read, where the path leads to the
file its canonical path names and nothing stands at the temporary path, leaves the file holding
its UTF-8 bytes and is read back through the path as the same code units. Bytes a file holds read
as a text exactly when they are well-formed UTF-8 short enough for a string, and that text is
written out as the same bytes; ill-formed bytes fail with the code of undecodable data, which
substitution reports as READ002, and well-formed bytes too many for a string fail as too long a
text, reported as READ001, both leaving the volume as it was. -/
theorem read_writeAtomic_round_trip {host : Host} {v : Volume} {serial : Nat} {p : String} :
    (∀ s, v.WellFormed → host.PlainTemp →
      (∀ t, v.realpath p = .ok t → ∀ n, v.lstat (tempPath host serial t) ≠ .ok n) →
      (∀ t, v.realpath p = .ok t → v.find t true = v.find p true) →
      (∃ bytes, v.readFile p = .ok bytes) → Text.isWellFormed s = true →
      (Text.Utf8.encodeText s).length ≤ Text.maxUnits →
      (writeAtomic host v serial p s).2 = .ok () →
        (writeAtomic host v serial p s).1.readFile p = .ok (Text.Utf8.encodeText s) ∧
        ∃ t, read (writeAtomic host v serial p s).1 p = .ok t ∧ Text.units t = Text.units s) ∧
    ∀ bytes, v.readFile p = .ok bytes →
      ((∃ s, read v p = .ok s) ↔ Text.Utf8.WellFormed bytes ∧ bytes.length ≤ Text.maxUnits) ∧
      (∀ s, read v p = .ok s → Text.Utf8.encodeText s = bytes) ∧
      (¬ Text.Utf8.WellFormed bytes → ∃ f, read v p = .error f ∧
        (f.cause host).errno = some Cause.invalidEncodingErrno ∧
        ∀ table id n, Run.substituteFile host v table p id n =
            .ok (v, .failed p id (Run.readDiagnostic host p f)) ∧
          (Run.readDiagnostic host p f).code.ident = "READ002") ∧
      (Text.Utf8.WellFormed bytes → Text.maxUnits < bytes.length →
        read v p = .error .stringTooLong ∧
        ∀ table id n, Run.substituteFile host v table p id n =
            .ok (v, .failed p id (Run.readDiagnostic host p .stringTooLong)) ∧
          (Run.readDiagnostic host p .stringTooLong).code.ident = "READ001") := by
  refine ⟨fun s hwf htemp hfree hcanon hread hs hlen hok => ?_,
    fun bytes hbytes => ⟨?_, ?_, ?_, ?_⟩⟩
  · have hwritten := readFile_writeAtomic hwf htemp hfree hcanon hread
      (hlen.trans maxUnits_lt_bufferMax.le) hok
    obtain ⟨t, ht, hunits⟩ := Text.Utf8.decode?_encodeText hs
    exact ⟨hwritten, t, (read_eq_ok_iff hwritten).2 ⟨ht, hlen⟩, hunits⟩
  · simp only [read_eq_ok_iff hbytes, ← Text.Utf8.decode?_isSome_iff, Option.isSome_iff_exists]
    constructor
    · rintro ⟨s, hs, hlen⟩
      exact ⟨⟨s, hs⟩, hlen⟩
    · rintro ⟨⟨s, hs⟩, hlen⟩
      exact ⟨s, hs, hlen⟩
  · intro s hs
    exact Text.Utf8.encodeText_of_decode? ((read_eq_ok_iff hbytes).1 hs).1
  · intro hbad
    have hnone : Text.Utf8.decode? bytes = none := by
      rw [← Option.not_isSome_iff_eq_none, Text.Utf8.decode?_isSome_iff]
      exact hbad
    have hread := read_of_decode?_none hbytes hnone
    refine ⟨.undecodable, hread, (Run.Fault.errno_eq_invalidEncoding_iff host _).2 rfl,
      fun table id n => ⟨Run.substituteFile_of_read_error hread, ?_⟩⟩
    have hcode := ((@Run.readDiagnostic_code host v p _ hread).2.1).2 ⟨bytes, hbytes, hnone⟩
    rw [hcode]
    rfl
  · intro hgood hlong
    obtain ⟨s, hs⟩ := Option.isSome_iff_exists.mp (Text.Utf8.decode?_isSome_iff.mpr hgood)
    have hread := read_of_too_long hbytes hs hlong
    refine ⟨hread, fun table id n => ⟨Run.substituteFile_of_read_error hread, ?_⟩⟩
    -- the bytes decode, so the diagnostic is not that of undecodable bytes
    obtain ⟨-, hnotUtf8, hcode⟩ := @Run.readDiagnostic_code host v p _ hread
    have hread001 : (Run.readDiagnostic host p .stringTooLong).code = .readFailed := by
      refine hcode.resolve_left fun h => ?_
      obtain ⟨b, hb, hnone⟩ := hnotUtf8.mp h
      rw [hbytes, Except.ok.injEq] at hb
      subst hb
      rw [hs] at hnone
      cases hnone
    rw [hread001]
    rfl

/-- A text that starts with a byte order mark reads back as written, mark included, and a file
holding an encoded surrogate is refused with READ002. -/
theorem bom_text_reads_back :
    let host := Host.standard "/" 7
    let v : Volume :=
      ⟨.dir 0o755 [("a.kt", .file 1 0o644 [0x71]), ("b.kt", .file 2 0o644 [0xED, 0xA0, 0x80])]⟩
    (v.WellFormed ∧ host.PlainTemp ∧
      (∀ t, v.realpath "/a.kt" = .ok t → ∀ n, v.lstat (tempPath host 1 t) ≠ .ok n) ∧
      (∀ t, v.realpath "/a.kt" = .ok t → v.find t true = v.find "/a.kt" true) ∧
      (∃ bytes, v.readFile "/a.kt" = .ok bytes) ∧ Text.isWellFormed "\uFEFFr" = true ∧
      (Text.Utf8.encodeText "\uFEFFr").length ≤ Text.maxUnits ∧
      (writeAtomic host v 1 "/a.kt" "\uFEFFr").2 = .ok () ∧
      (writeAtomic host v 1 "/a.kt" "\uFEFFr").1.readFile "/a.kt" =
        .ok (Text.Utf8.encodeText "\uFEFFr") ∧
      ∃ t, read (writeAtomic host v 1 "/a.kt" "\uFEFFr").1 "/a.kt" = .ok t ∧
        Text.units t = Text.units "\uFEFFr") ∧
    v.readFile "/b.kt" = .ok [0xED, 0xA0, 0x80] ∧ ¬ Text.Utf8.WellFormed [0xED, 0xA0, 0x80] ∧
      ∃ f, read v "/b.kt" = .error f ∧ (f.cause host).errno = some Cause.invalidEncodingErrno ∧
        ∀ table id n, Run.substituteFile host v table "/b.kt" id n =
            .ok (v, .failed "/b.kt" id (Run.readDiagnostic host "/b.kt" f)) ∧
          (Run.readDiagnostic host "/b.kt" f).code.ident = "READ002" := by
  intro host v
  have hwf : v.WellFormed := ⟨⟨_, _, rfl⟩, by decide⟩
  have htemp : host.PlainTemp := Host.standard_plainTemp "/" 7
  have hreal : v.realpath "/a.kt" = .ok "/a.kt" := by decide
  have hfree : ∀ t, v.realpath "/a.kt" = .ok t → ∀ n, v.lstat (tempPath host 1 t) ≠ .ok n := by
    intro t ht n hn
    rw [hreal, Except.ok.injEq] at ht
    subst ht
    have hmissing : (v.lstat (tempPath host 1 "/a.kt")).toBool = false := by decide
    rw [hn] at hmissing
    cases hmissing
  have hcanon : ∀ t, v.realpath "/a.kt" = .ok t → v.find t true = v.find "/a.kt" true := by
    intro t ht
    rw [hreal, Except.ok.injEq] at ht
    rw [← ht]
  have hread : ∃ bytes, v.readFile "/a.kt" = .ok bytes := ⟨[0x71], by decide⟩
  have hs : Text.isWellFormed "\uFEFFr" = true := by decide
  have hlen : (Text.Utf8.encodeText "\uFEFFr").length ≤ Text.maxUnits := by decide
  have hok : (writeAtomic host v 1 "/a.kt" "\uFEFFr").2 = .ok () := by decide +kernel
  have hbytes : v.readFile "/b.kt" = .ok [0xED, 0xA0, 0x80] := by decide
  have hbad : ¬ Text.Utf8.WellFormed [0xED, 0xA0, 0x80] := by
    rw [← Text.Utf8.decode?_isSome_iff]
    decide +kernel
  exact ⟨⟨hwf, htemp, hfree, hcanon, hread, hs, hlen, hok,
      (read_writeAtomic_round_trip (v := v) (p := "/a.kt")).1 "\uFEFFr" hwf htemp hfree hcanon
        hread hs hlen hok⟩,
    hbytes, hbad, ((@read_writeAtomic_round_trip host v 1 "/b.kt").2 _
      hbytes).2.2.1 hbad⟩

/-- A file its owner may write but not read is replaced, and then cannot be read: the new file
keeps the old one's permission bits. -/
theorem write_only_file_unreadable_after_write :
    let host := Host.standard "/" 7
    let v : Volume := ⟨.dir 0o755 [("a.kt", .file 1 0o200 [0x71])]⟩
    (writeAtomic host v 1 "/a.kt" "X").2 = .ok () ∧
      read (writeAtomic host v 1 "/a.kt" "X").1 "/a.kt" =
        .error (.system ⟨.accessDenied, "open", some "/a.kt", none⟩) :=
  ⟨by decide +kernel, by decide +kernel⟩

end TextFile

end Reword
