import Mathlib
import Reword.Substitution.Table
/-!
# Substitution as a scan from the left

A table never scans a text itself: each rule cuts the units at its pattern's occurrences, joins
the pieces with its replacement, and counts the pieces less one. This module writes down the
scan that those cuts stand for and proves that the table performs it. The scan reads the units
from the left; where the pattern occurs at the current place it puts out the replacement, counts
one occurrence and resumes right after the occurrence, so the units it put out are never read
again by the same rule; anywhere else it copies one unit and moves on by one.

**The law** (`applyWithStats_eq_scanAll`): applying a table gives the units, the total count and
the hit list of running that scan for each rule in order over what the rules before it left, a
rule being listed with its count exactly when it occurred; `apply` gives the same text.

Self-overlapping patterns, replacements that hold their own pattern, and later rules that match
what earlier ones put in are all cases of the one induction along `Literal.split_induction`: the
scan and the cut take the same occurrences because both resume after each one.
-/

namespace Reword

namespace Literal

variable {α : Type} [DecidableEq α]

/-- The reference replacement: reading from the left, an occurrence of the pattern at the current
place is put out as the replacement and counted, and reading resumes after it; any other element
is copied. An empty pattern occurs nowhere. -/
def scanReplace (pattern replacement : List α) : List α → List α × Nat
  | [] => ([], 0)
  | c :: rest =>
    if h : pattern ≠ [] ∧ pattern.isPrefixOf (c :: rest) = true then
      have : 0 < pattern.length := List.length_pos_iff.mpr h.1
      let after := scanReplace pattern replacement ((c :: rest).drop pattern.length)
      (replacement ++ after.1, after.2 + 1)
    else
      let after := scanReplace pattern replacement rest
      (c :: after.1, after.2)
termination_by text => text.length
decreasing_by all_goals simp only [List.length_drop, List.length_cons]; omega

/-- Cutting at the occurrences and joining with the replacement is the scan, and the pieces
less one are its count. -/
theorem scanReplace_eq (pattern replacement text : List α) :
    scanReplace pattern replacement text =
      (replaceAll pattern replacement text, occurrences pattern text) := by
  induction text using split_induction pattern with
  | nil => simp [scanReplace, replaceAll, occurrences]
  | occurs c rest h ih =>
    have hne := split_ne_nil pattern ((c :: rest).drop pattern.length)
    have hpos : 0 < (split pattern ((c :: rest).drop pattern.length)).length :=
      List.length_pos_iff.mpr hne
    rw [scanReplace, dif_pos h, ih]
    simp only [replaceAll, occurrences, split_of_occurs h, intercalate_nil_cons _ hne,
      List.length_cons, Prod.mk.injEq, true_and]
    omega
  | passes c rest h ih =>
    have hne := split_ne_nil pattern rest
    rw [scanReplace, dif_neg h, ih]
    simp only [replaceAll, occurrences, split_of_not_occurs h, intercalate_consHead _ _ hne,
      length_consHead _ hne]

end Literal

namespace Table

/-- Where a reference run of rules stands: the units so far, the occurrences replaced so far,
and the patterns that occurred with their counts, in rule order. -/
structure Scan where
  units : List UInt16
  total : Nat
  hits : List (String × Nat)
deriving DecidableEq, Repr

/-- One rule of the reference run: its scan over the units so far, its count added to the total
and, when it occurred, listed with its pattern. -/
def scanStep (s : Scan) (r : Rule) : Scan :=
  let (out, n) := Literal.scanReplace (Text.units r.pattern) (Text.units r.replacement) s.units
  ⟨out, s.total + n, if n = 0 then s.hits else s.hits ++ [(r.pattern, n)]⟩

/-- The reference run of rules over a text: each rule's scan in turn, over what the rules before
it left. -/
def scanAll (rules : List Rule) (text : String) : Scan :=
  rules.foldl scanStep ⟨Text.units text, 0, []⟩

/-- A run in which no rule occurred leaves the units as they were. -/
theorem runRules_of_hits_nil {rules : List Rule} {units : List UInt16}
    (h : (runRules rules units).2 = []) : (runRules rules units).1 = units := by
  induction rules generalizing units with
  | nil => rfl
  | cons r rs ih =>
    by_cases hn : (r.cut units).length - 1 = 0
    · simp only [runRules, hn, if_true] at h ⊢
      exact ih h
    · simp [runRules, hn] at h

/-- Folding the scan over rules runs them: the units are the run's, and its counts and hits are
added to those already there. -/
theorem foldl_scanStep (rules : List Rule) (s : Scan) :
    rules.foldl scanStep s =
      ⟨(runRules rules s.units).1,
        s.total + ((runRules rules s.units).2.map Prod.snd).sum,
        s.hits ++ (runRules rules s.units).2⟩ := by
  induction rules generalizing s with
  | nil => simp [runRules]
  | cons r rs ih =>
    rw [List.foldl_cons, ih]
    have hstep := Literal.scanReplace_eq (Text.units r.pattern) (Text.units r.replacement) s.units
    by_cases hn : (r.cut s.units).length - 1 = 0
    · -- the rule does not occur: its scan copies the units and counts nothing
      have hsplit := Literal.split_eq_singleton hn
      have hcount : Literal.occurrences (Text.units r.pattern) s.units = 0 := hn
      have hcopy : Literal.replaceAll (Text.units r.pattern) (Text.units r.replacement) s.units =
          s.units := by
        simp only [Literal.replaceAll, hsplit, List.intercalate_singleton]
      simp only [scanStep, hstep, hcount, hcopy, runRules, hn, if_true, Nat.add_zero]
    · have hcut : (Literal.split (Text.units r.pattern) s.units).length - 1 ≠ 0 := hn
      simp only [scanStep, hstep, Literal.occurrences, hcut, if_false, runRules, Rule.cut,
        Literal.replaceAll, List.map_cons, List.sum_cons, List.append_assoc,
        List.singleton_append, Scan.mk.injEq, true_and, and_true]
      omega

/-- Applying a table is running the reference scan for its rules in order: the text's units
are the run's last units, the replacements its total, and the hits its list of the rules that
occurred with their counts; `apply` gives the same text. -/
theorem applyWithStats_eq_scanAll (T : Table) (text : String) :
    Text.units (T.applyWithStats text).text = (scanAll T.rules text).units ∧
      (T.applyWithStats text).replacements = (scanAll T.rules text).total ∧
      (T.applyWithStats text).hits = (scanAll T.rules text).hits ∧
      T.apply text = (T.applyWithStats text).text := by
  have hrun := foldl_scanStep T.rules ⟨Text.units text, 0, []⟩
  simp only [Nat.zero_add, List.nil_append] at hrun
  refine ⟨?_, ?_, ?_, rfl⟩
  · -- a run where nothing occurred hands the text back; otherwise its units are read back
    rw [scanAll, hrun]
    by_cases hnil : (runRules T.rules (Text.units text)).2 = []
    · simp [applyWithStats, hnil, runRules_of_hits_nil hnil]
    · simp [applyWithStats, hnil, Text.units_ofUnits]
  · rw [scanAll, hrun]
    rfl
  · rw [scanAll, hrun]
    rfl

/-- The units a rule puts in are not read again by the same rule, and an overlapping occurrence
is not taken: `a → aa` doubles each `a` once, and `aabaa` holds `aa` twice. -/
example :
    (⟨[⟨"a", "aa"⟩, ⟨"aa", "b"⟩], by decide, by decide⟩ : Table).applyWithStats "aba" =
      ⟨"bbb", [("a", 2), ("aa", 2)]⟩ := by
  decide

end Table

end Reword
