import Mathlib
import Reword.Proofs.RuleOrder
import Reword.Proofs.ReportCounts
/-!
# Building a table from entries

A table is built from entries in order. The first entry of a pattern fixes where its rule
stands, and every later entry of the same pattern only sets its replacement (`Rule.upsert`).
Read as a list, a built table holds the distinct patterns of its entries in the order of their
first entries. Read as a map, it answers for each pattern what the entries answer when read
from the last one back: the last entry of a pattern wins.

**The law** (`ofEntries_merges_entries`): building fails exactly when an entry has an empty
pattern, and then with that error; otherwise the table's patterns are the entries' patterns
with repeats dropped (`List.eraseDups` keeps each first occurrence), and looking any pattern up
in its rules gives the replacement of the pattern's last entry. The rules of every table build
that table again, and building from rules is building from their pairs.
-/

namespace Reword

namespace Rule

/-- Looking a pattern up in rules after setting one finds the replacement just set for that
pattern, and what was there for any other. -/
theorem lookup_upsert (k p r : String) (rs : List Rule) :
    ((upsert p r rs).map fun x => (x.pattern, x.replacement)).lookup k =
      if k = p then some r else (rs.map fun x => (x.pattern, x.replacement)).lookup k := by
  induction rs with
  | nil => by_cases h : k = p <;> simp [upsert, h]
  | cons x xs ih =>
    by_cases hx : x.pattern = p
    · -- the first rule is the one set, and it is the first place a lookup looks
      by_cases h : k = p
      · simp [upsert, hx, h]
      · have hb : (k == p) = false := beq_eq_false_iff_ne.mpr h
        simp [upsert, hx, h, hb, List.lookup_cons]
    · by_cases h : k = x.pattern
      · simp [upsert, hx, h]
      · have hb : (k == x.pattern) = false := beq_eq_false_iff_ne.mpr h
        simp [upsert, hx, hb, ih, List.lookup_cons]

/-- Entries set in turn over rules: a pattern is looked up among the entries from the last one
back, and among the rules only when no entry has it. -/
theorem lookup_foldl_upsert (k : String) : ∀ (entries : List (String × String)) (rs : List Rule),
    ((entries.foldl (fun rs e => upsert e.1 e.2 rs) rs).map
        fun x => (x.pattern, x.replacement)).lookup k =
      (entries.reverse.lookup k).or ((rs.map fun x => (x.pattern, x.replacement)).lookup k)
  | [], rs => by simp
  | (p, r) :: rest, rs => by
    rw [List.foldl_cons, lookup_foldl_upsert k rest, lookup_upsert, List.reverse_cons,
      List.lookup_append, Option.or_assoc]
    by_cases h : k = p
    · simp [h]
    · have hb : (k == p) = false := beq_eq_false_iff_ne.mpr h
      simp [h, hb, List.lookup_cons]

/-- Entries set in turn over rules of distinct patterns: the patterns are those of the rules
followed by those of the entries, each kept where it first stands. -/
theorem patterns_foldl_upsert : ∀ (entries : List (String × String)) (rs : List Rule),
    (rs.map Rule.pattern).Nodup →
      (entries.foldl (fun rs e => upsert e.1 e.2 rs) rs).map Rule.pattern =
        (rs.map Rule.pattern ++ entries.map Prod.fst).eraseDups
  | [], rs, h => by simp [eraseDups_of_nodup h]
  | (p, r) :: rest, rs, h => by
    have hnodup : ((upsert p r rs).map Rule.pattern).Nodup := by
      rw [map_pattern_upsert]
      split
      · exact h
      · next hmem => exact List.nodup_append.mpr ⟨h, by simp, by simp_all⟩
    rw [List.foldl_cons, patterns_foldl_upsert rest _ hnodup, map_pattern_upsert]
    split
    · -- a pattern already present adds nothing: its later entry is dropped as a repeat
      next hmem =>
      have hdrop : (p :: rest.map Prod.fst).removeAll (rs.map Rule.pattern) =
          (rest.map Prod.fst).removeAll (rs.map Rule.pattern) := by
        simp only [List.removeAll, List.filter_cons, List.elem_eq_mem, hmem, decide_true,
          Bool.not_true, Bool.false_eq_true, if_false]
      rw [List.map_cons, List.eraseDups_append, List.eraseDups_append, hdrop]
    · simp

end Rule

namespace Table

/-- Building fails exactly when an entry has an empty pattern, and then with that error. -/
theorem ofEntries_eq_error_iff (entries : List (String × String)) :
    ofEntries entries = .error .emptyPattern ↔ ∃ e ∈ entries, e.1 = "" := by
  constructor
  · intro h
    by_contra hnone
    have hall : ∀ e ∈ entries, e.1 ≠ "" := fun e he hempty => hnone ⟨e, he, hempty⟩
    obtain ⟨T, hT, -⟩ := putAll_ok empty entries hall
    rw [ofEntries, hT] at h
    cases h
  · exact putAll_error empty entries

/-- The rules of a built table are its entries set in turn over no rules. -/
theorem rules_of_ofEntries {entries : List (String × String)} {T : Table}
    (h : ofEntries entries = .ok T) :
    T.rules = entries.foldl (fun rs e => Rule.upsert e.1 e.2 rs) [] := by
  have hne : ∀ e ∈ entries, e.1 ≠ "" := by
    intro e he hempty
    rw [(ofEntries_eq_error_iff entries).mpr ⟨e, he, hempty⟩] at h
    cases h
  obtain ⟨T', hT', hrules⟩ := putAll_ok empty entries hne
  rw [ofEntries, hT', Except.ok.injEq] at h
  subst h
  exact hrules

/-- The rules of a table build the same rules again: their patterns are nonempty and distinct,
so each is added once, at the end. -/
theorem ofRules_rules (T : Table) : ∃ T', ofRules T.rules = .ok T' ∧ T'.rules = T.rules := by
  have hne : ∀ e ∈ T.rules.map (fun r => (r.pattern, r.replacement)), e.1 ≠ "" := by
    intro e he
    obtain ⟨r, hr, rfl⟩ := List.mem_map.mp he
    exact T.pattern_ne r hr
  obtain ⟨T', hT', hrules⟩ := putAll_ok empty _ hne
  refine ⟨T', hT', ?_⟩
  have hkeep := Rule.foldl_upsert_of_nodup T.rules [] (by simpa using T.patterns_nodup)
  rw [List.nil_append] at hkeep
  rw [hrules]
  exact hkeep

/-- Building a table merges its entries: it fails exactly when a pattern is empty, and
otherwise lists each distinct pattern once, where it first occurs, with the replacement of its
last entry. The rules of any table rebuild it, and rules build what their pairs build. -/
theorem ofEntries_merges_entries (entries : List (String × String)) :
    (ofEntries entries = .error .emptyPattern ↔ ∃ e ∈ entries, e.1 = "") ∧
    (∀ T, ofEntries entries = .ok T →
      T.rules.map Rule.pattern = (entries.map Prod.fst).eraseDups ∧
      ∀ k, (T.rules.map fun r => (r.pattern, r.replacement)).lookup k = entries.reverse.lookup k) ∧
    (∀ T : Table, ∃ T', ofRules T.rules = .ok T' ∧ T'.rules = T.rules) ∧
    (∀ rules, ofRules rules = ofEntries (rules.map fun r => (r.pattern, r.replacement))) := by
  refine ⟨ofEntries_eq_error_iff entries, fun T h => ?_, ofRules_rules, fun _ => rfl⟩
  rw [rules_of_ofEntries h]
  exact ⟨by simpa using Rule.patterns_foldl_upsert entries [] List.nodup_nil,
    fun k => by simpa using Rule.lookup_foldl_upsert k entries []⟩

/-- A repeated pattern keeps its first place and takes its last replacement. -/
example : (ofEntries [("a", "1"), ("b", "2"), ("a", "3")]).map Table.rules =
    .ok [⟨"a", "3"⟩, ⟨"b", "2"⟩] := by
  decide

end Table

end Reword
