import Mathlib
import Reword.Proofs.Stops
/-!
# The outcome of one file

Substituting into a file reads it, applies the table and writes the result back only if the
text changed. The decision is taken on the text, not on the count of occurrences: rules that
fire and cancel out (`x → y`, then `y → x`) leave a file untouched.

Each branch is a lemma of its own: a file that cannot be read fails with a reading code and
changes nothing (`substituteFile_of_read_error`), READ002 exactly when its bytes were read but
are not UTF-8 (`readDiagnostic_code`), a file too long for a string included; a text the table
gives back is left alone (`substituteFile_of_apply_eq`); any other text is handed once to the
atomic write, whose volume is the one the file ends in, and the file is changed with at least
one replacement (`replacements_pos_of_apply_ne`) or fails with the writing code
(`substituteFile_of_apply_ne`).

**The law** (`substituteFile_outcomes`) puts the branches together, with the two in which a file
ends in no outcome: a text whose rewrite is longer than a string may be stops with the engine's
refusal before anything is written, and a write whose canonical path is searched for ever never
returns.
-/

namespace Reword

namespace TextFile

/-- Reading text fails where the file cannot be read, where its bytes are read but are not
UTF-8, or where they are more than a string may be made of. -/
theorem read_eq_error {v : Volume} {p : String} {f : Fault} (h : read v p = .error f) :
    (∃ g, v.readFile p = .error g ∧ f = .system g) ∨
      (∃ bytes, v.readFile p = .ok bytes ∧ Text.Utf8.decode? bytes = none ∧ f = .undecodable) ∨
      (∃ bytes, v.readFile p = .ok bytes ∧ Text.maxUnits < bytes.length ∧ f = .stringTooLong) := by
  unfold read at h
  split at h
  · next g hg =>
    cases h
    exact .inl ⟨g, hg, rfl⟩
  · next bytes hbytes =>
    split at h
    · split at h
      · next hlong =>
        cases h
        exact .inr (.inr ⟨bytes, hbytes, hlong, rfl⟩)
      · cases h
    · next hdecode =>
      cases h
      exact .inr (.inl ⟨bytes, hbytes, hdecode, rfl⟩)

end TextFile

namespace Run

/-- The diagnostic of a file that cannot be read. -/
def readDiagnostic (host : Host) (path : String) (f : Fault) : Diagnostic :=
  (f.cause host).diagnose path (some .read)

/-- The diagnostic of a file that cannot be written. -/
def writeDiagnostic (path : String) (f : SysFault) : Diagnostic :=
  f.cause.diagnose path (some .write)

/-- Only a text that is not UTF-8 carries the error code of an undecodable text. -/
theorem Fault.errno_eq_invalidEncoding_iff (host : Host) (f : Fault) :
    (f.cause host).errno = some Cause.invalidEncodingErrno ↔ f = .undecodable := by
  cases f with
  | system g =>
    simp only [Fault.cause, SysFault.cause, Option.some.injEq, reduceCtorEq, iff_false]
    cases g.errno <;> simp [Errno.code, Cause.invalidEncodingErrno]
  | undecodable => simp [Fault.cause, Fault.errno]
  | stringTooLong => simp [Fault.cause, Fault.errno, Cause.invalidEncodingErrno]
  | notDirectory p => simp [Fault.cause, Fault.errno]
  | malformedJson source f => simp [Fault.cause, Fault.errno]

/-- A file that cannot be read is reported at its path, as not UTF-8 when its bytes were read
and do not decode, and as unreadable otherwise. -/
theorem readDiagnostic_code {host : Host} {v : Volume} {path : String} {f : Fault}
    (h : TextFile.read v path = .error f) :
    (readDiagnostic host path f).filePath = some path ∧
      ((readDiagnostic host path f).code = .notUtf8 ↔
        ∃ bytes, v.readFile path = .ok bytes ∧ Text.Utf8.decode? bytes = none) ∧
      ((readDiagnostic host path f).code = .notUtf8 ∨ (readDiagnostic host path f).code = .readFailed) := by
  have hcode : (readDiagnostic host path f).code =
      if f = .undecodable then Code.notUtf8 else Code.readFailed := by
    simp only [readDiagnostic, Cause.diagnose, Diagnostic.code_make, true_and,
      Fault.errno_eq_invalidEncoding_iff]
    split <;> rfl
  have hundecodable : f = .undecodable ↔
      ∃ bytes, v.readFile path = .ok bytes ∧ Text.Utf8.decode? bytes = none := by
    rcases TextFile.read_eq_error h with ⟨g, hg, rfl⟩ | ⟨bytes, hbytes, hdecode, rfl⟩ |
      ⟨bytes, hbytes, hlong, rfl⟩
    · simp [hg]
    · exact ⟨fun _ => ⟨bytes, hbytes, hdecode⟩, fun _ => rfl⟩
    · -- bytes too many for a string were decoded first, so they are UTF-8
      unfold TextFile.read at h
      rw [hbytes] at h
      simp only [reduceCtorEq, false_iff, not_exists, not_and]
      intro bytes' hbytes' hnone
      rw [hbytes, Except.ok.injEq] at hbytes'
      subst hbytes'
      simp [hnone] at h
  refine ⟨rfl, ?_⟩
  rw [hcode, ← hundecodable]
  by_cases hf : f = .undecodable <;> simp [hf]

/-- A file that cannot be written is reported at its path with the writing code. -/
theorem writeDiagnostic_code (path : String) (f : SysFault) :
    (writeDiagnostic path f).filePath = some path ∧ (writeDiagnostic path f).code = .writeFailed :=
  ⟨rfl, rfl⟩

/-- A file that cannot be read fails and the volume stays as it was. -/
theorem substituteFile_of_read_error {host : Host} {v : Volume} {table : Table} {path id : String}
    {serial : Nat} {f : Fault} (h : TextFile.read v path = .error f) :
    substituteFile host v table path id serial =
      .ok (v, .failed path id (readDiagnostic host path f)) := by
  simp only [substituteFile, h, readDiagnostic]

/-- A text the table gives back, whatever its rules replaced on the way, leaves the file
unchanged and writes nothing. -/
theorem substituteFile_of_apply_eq {host : Host} {v : Volume} {table : Table} {path id text : String}
    {serial : Nat} (hread : TextFile.read v path = .ok text) (hfits : table.fits text = true)
    (hsame : table.apply text = text) :
    substituteFile host v table path id serial = .ok (v, .unchanged path id) := by
  have htext : (table.applyWithStats text).text = text := hsame
  simp only [substituteFile, hread, hfits, if_true, htext]

/-- A text that the table changes is written back once, through the atomic write, and the file
is changed or fails with the writing diagnostic, in the volume the write leaves; a write that
never returns leaves the file with no outcome. -/
theorem substituteFile_of_apply_ne {host : Host} {v : Volume} {table : Table} {path id text : String}
    {serial : Nat} (hread : TextFile.read v path = .ok text) (hfits : table.fits text = true)
    (hchanged : table.apply text ≠ text) :
    substituteFile host v table path id serial =
      match TextFile.writeAtomic host v serial path (table.apply text) with
      | (v', .ok ()) => .ok (v', .changed path id (table.applyWithStats text).replacements)
      | (v', .error f) =>
        if f.errno = .endless then .error (.endless path)
        else .ok (v', .failed path id (writeDiagnostic path f)) := by
  have htext : (table.applyWithStats text).text ≠ text := hchanged
  have happly : table.apply text = (table.applyWithStats text).text := rfl
  rcases hw : TextFile.writeAtomic host v serial path (table.apply text) with ⟨v', _ | _⟩ <;>
    rw [happly] at hw <;> simp [substituteFile, hread, hfits, htext, hw, writeDiagnostic]

/-- A file with an outcome leaves the volume it was given, or the one its atomic write left. -/
theorem substituteFile_volume {host : Host} {v v' : Volume} {table : Table} {path id : String}
    {serial : Nat} {o : Outcome} (h : substituteFile host v table path id serial = .ok (v', o)) :
    v' = v ∨ ∃ text, (TextFile.writeAtomic host v serial path text).1 = v' := by
  cases hread : TextFile.read v path with
  | error f =>
    rw [substituteFile_of_read_error hread] at h
    cases h
    exact .inl rfl
  | ok text =>
    cases hfits : table.fits text with
    | false => simp [substituteFile, hread, hfits] at h
    | true =>
      by_cases hsame : table.apply text = text
      · rw [substituteFile_of_apply_eq hread hfits hsame] at h
        cases h
        exact .inl rfl
      · rw [substituteFile_of_apply_ne hread hfits hsame] at h
        refine .inr ⟨table.apply text, ?_⟩
        -- whichever way the write ends, the outcome stands in the volume it left
        rcases hw : TextFile.writeAtomic host v serial path (table.apply text) with ⟨v'', _ | _⟩ <;>
          rw [hw] at h <;> dsimp only at h
        · split at h
          · cases h
          · cases h
            rfl
        · cases h
          rfl

/-- Every pattern the rules report has occurred at least once. -/
theorem runRules_hit_pos : (rs : List Rule) → (units : List UInt16) →
    ∀ hit ∈ (Table.runRules rs units).2, 0 < hit.2
  | [], _ => fun _ h => absurd h List.not_mem_nil
  | r :: rs, units => by
    intro hit hhit
    by_cases hn : (r.cut units).length - 1 = 0
    · simp only [Table.runRules, hn, if_true] at hhit
      exact runRules_hit_pos rs units hit hhit
    · simp only [Table.runRules, hn, if_false, List.mem_cons] at hhit
      rcases hhit with rfl | hhit
      · exact Nat.pos_of_ne_zero hn
      · exact runRules_hit_pos rs _ hit hhit

/-- A text that the table changes has had at least one occurrence replaced. -/
theorem replacements_pos_of_apply_ne {table : Table} {text : String}
    (hchanged : table.apply text ≠ text) : 0 < (table.applyWithStats text).replacements := by
  -- with no pattern reported the text comes back as it was given
  have hhits : (Table.runRules table.rules (Text.units text)).2 ≠ [] := by
    intro hnil
    apply hchanged
    simp [Table.apply, Table.applyWithStats, hnil]
  obtain ⟨hit, rest, hcons⟩ := List.exists_cons_of_ne_nil hhits
  have hpos : 0 < hit.2 := runRules_hit_pos table.rules (Text.units text) hit (by simp [hcons])
  have hsum : (table.applyWithStats text).replacements = hit.2 + (rest.map Prod.snd).foldr (· + ·) 0 := by
    simp [Table.applyWithStats, Applied.replacements, hcons]
  omega

/-- The outcomes of one file: a file that cannot be read fails at its path, as not UTF-8 exactly
when its bytes were read and do not decode, and the volume stays as it was; a text the table
gives back is unchanged and nothing is written; any other text is written back once by the
atomic write, whose volume the file ends in, and is changed with at least one replacement or
fails at its path with the writing code, unless the search for the file's canonical path never
ends, when the write never returns and neither does the file; and a text whose rewrite does not
fit in a string stops with the engine's refusal. -/
theorem substituteFile_outcomes (host : Host) (v : Volume) (T : Table) (path id : String)
    (serial : Nat) :
    (∀ f, TextFile.read v path = .error f →
      ∃ d, substituteFile host v T path id serial = .ok (v, .failed path id d) ∧
        d.filePath = some path ∧
        (d.code = .notUtf8 ↔ ∃ bytes, v.readFile path = .ok bytes ∧ Text.Utf8.decode? bytes = none) ∧
        (d.code = .notUtf8 ∨ d.code = .readFailed)) ∧
    (∀ c, TextFile.read v path = .ok c → T.fits c = true → T.apply c = c →
      substituteFile host v T path id serial = .ok (v, .unchanged path id)) ∧
    (∀ c, TextFile.read v path = .ok c → T.fits c = true → T.apply c ≠ c →
      0 < (T.applyWithStats c).replacements ∧
      match TextFile.writeAtomic host v serial path (T.apply c) with
      | (v', .ok ()) =>
        substituteFile host v T path id serial =
          .ok (v', .changed path id (T.applyWithStats c).replacements)
      | (v', .error f) =>
        (f.errno = .endless → v.realpath path = .error f ∧
          substituteFile host v T path id serial = .error (.endless path)) ∧
        (f.errno ≠ .endless → ∃ d, substituteFile host v T path id serial = .ok (v', .failed path id d) ∧
          d.filePath = some path ∧ d.code = .writeFailed)) ∧
    (∀ c, TextFile.read v path = .ok c → T.fits c = false →
      substituteFile host v T path id serial = .error .tooLong) := by
  refine ⟨fun f hread => ?_, fun c hread hfits hsame => substituteFile_of_apply_eq hread hfits hsame,
    fun c hread hfits hchanged => ⟨replacements_pos_of_apply_ne hchanged, ?_⟩,
    fun c hread hfits => substituteFile_eq_error_iff.mpr ⟨c, hread, .inl ⟨rfl, hfits⟩⟩⟩
  · exact ⟨_, substituteFile_of_read_error hread, readDiagnostic_code hread⟩
  · rw [substituteFile_of_apply_ne hread hfits hchanged]
    -- the written volume is the one the outcome stands in, whichever way the write ends
    rcases hw : TextFile.writeAtomic host v serial path (T.apply c) with ⟨v', f | _⟩
    · refine ⟨fun hend => ⟨TextFile.writeAtomic_endless (by rw [hw]) hend, ?_⟩, fun hend => ?_⟩
      · simp only [hend, if_true]
      · exact ⟨writeDiagnostic path f, by simp only [hend, if_false], writeDiagnostic_code path f⟩
    · rfl

end Run

end Reword
