import Mathlib
import Reword.Proofs.Scan
import Reword.Proofs.Fixpoint
/-!
# One pass leaves no pattern

A rule cuts a text at the leftmost occurrences of its pattern and joins the pieces with its
replacement. The scan that makes the cuts meets every occurrence that lies inside a piece before
it could pass it, so no piece holds the pattern (`Literal.not_infix_of_mem_split`). A pattern
that shares no element with a nonempty separator occurs in the pieces joined by it only inside a
piece (`Literal.infix_intercalate`): it cannot hold the separator, nor bridge it.

So when every replacement of a table is nonempty and holds no unit of any pattern
(`Table.InertReplacements`), each rule leaves its own pattern out of the text and brings back
none that an earlier rule took out (`Table.runRules_settles`).

**The law** (`Table.applyWithStats_apply_of_inert`): such a table settles every text in one
pass. No pattern of it occurs in what it gives, so a second pass finds nothing, counts nothing
and gives the text back: applying it is idempotent.

Both conditions are needed. An empty replacement joins two pieces: `ab → x` then `c → ""` turn
`acb` into `ab`, where the first pattern occurs. A replacement that holds part of a pattern can
complete it: the bundled table's `Initializing Winlator` followed by `初期化` is its earlier
pattern `Winlator初期化`.
-/

namespace Reword

namespace Literal

variable {α : Type}

/-- The first piece of a join is where the join starts. -/
theorem head_prefix_intercalate (sep piece : List α) (pieces : List (List α)) :
    piece <+: sep.intercalate (piece :: pieces) := by
  cases pieces with
  | nil => simp
  | cons next rest =>
    rw [List.intercalate_cons_cons, List.append_assoc]
    exact List.prefix_append _ _

/-- Every piece of a join is part of it. -/
theorem infix_intercalate_of_mem (sep : List α) {piece : List α} {pieces : List (List α)}
    (h : piece ∈ pieces) : piece <:+: sep.intercalate pieces := by
  induction pieces with
  | nil => exact absurd h List.not_mem_nil
  | cons a rest ih =>
    cases rest with
    | nil => simp_all
    | cons b rest =>
      rw [List.intercalate_cons_cons]
      rcases List.mem_cons.mp h with rfl | h
      · exact ⟨[], sep ++ sep.intercalate (b :: rest), by simp⟩
      · exact (ih h).trans (List.suffix_append _ _).isInfix

/-- The scan from the left leaves no occurrence inside a piece: one there would have been met
first, and cut. -/
theorem not_infix_of_mem_split [DecidableEq α] {pattern : List α} (hp : pattern ≠ []) (text : List α) :
    ∀ piece ∈ split pattern text, ¬ pattern <:+: piece := by
  induction text using split_induction pattern with
  | nil =>
    intro piece hpiece hin
    simp only [split_nil, List.mem_singleton] at hpiece
    exact hp (List.eq_nil_of_infix_nil (hpiece ▸ hin))
  | occurs c rest h ih =>
    intro piece hpiece hin
    rw [split_of_occurs h, List.mem_cons] at hpiece
    rcases hpiece with rfl | hpiece
    · exact hp (List.eq_nil_of_infix_nil hin)
    · exact ih piece hpiece hin
  | passes c rest h ih =>
    intro piece hpiece hin
    obtain ⟨first, more, hsplit⟩ := List.exists_cons_of_ne_nil (split_ne_nil pattern rest)
    rw [split_of_not_occurs h, hsplit, consHead, List.mem_cons] at hpiece
    rcases hpiece with rfl | hpiece
    · -- an occurrence in the first piece either starts the text, where the scan found none,
      -- or lies in what the first piece of the rest holds
      rcases List.infix_cons_iff.mp hin with hpre | hin
      · have hfirst : first <+: rest := by
          have hjoin := intercalate_split pattern rest
          rw [hsplit] at hjoin
          exact hjoin ▸ head_prefix_intercalate pattern first more
        exact h ⟨hp, List.isPrefixOf_iff_prefix.mpr
          (hpre.trans ((List.prefix_cons_inj c).mpr hfirst))⟩
      · exact ih first (hsplit ▸ List.mem_cons_self) hin
    · exact ih piece (hsplit ▸ List.mem_cons_of_mem _ hpiece) hin

/-- A text that holds no element of a nonempty separator and starts a text holding the
separator starts before it. -/
theorem prefix_of_prefix_append_sep {q sep : List α} (hsep : sep ≠ []) (hq : ∀ u ∈ q, u ∉ sep)
    (x y : List α) (h : q <+: x ++ (sep ++ y)) : q <+: x := by
  induction x generalizing q with
  | nil =>
    cases q with
    | nil => exact List.nil_prefix
    | cons c q =>
      obtain ⟨s, ss, rfl⟩ := List.exists_cons_of_ne_nil hsep
      have hc := ((List.cons_prefix_cons).mp h).1
      exact absurd (hc ▸ List.mem_cons_self) (hq c List.mem_cons_self)
  | cons a x ih =>
    cases q with
    | nil => exact List.nil_prefix
    | cons c q =>
      obtain ⟨rfl, hrest⟩ := (List.cons_prefix_cons).mp h
      exact (List.cons_prefix_cons).mpr
        ⟨rfl, ih (fun u hu => hq u (List.mem_cons_of_mem _ hu)) hrest⟩

/-- A nonempty text that holds no element of a separator and occurs in a text that follows the
separator occurs after it. -/
theorem infix_of_infix_sep_append {q : List α} (hq : q ≠ []) (y : List α) :
    ∀ sep : List α, (∀ u ∈ q, u ∉ sep) → q <:+: sep ++ y → q <:+: y := by
  intro sep
  induction sep with
  | nil => intro _ h; simpa using h
  | cons s ss ih =>
    intro hdis h
    rcases List.infix_cons_iff.mp h with hpre | hin
    · obtain ⟨c, q', rfl⟩ := List.exists_cons_of_ne_nil hq
      have hc := ((List.cons_prefix_cons).mp hpre).1
      exact absurd (hc ▸ List.mem_cons_self) (hdis c List.mem_cons_self)
    · exact ih (fun u hu hss => hdis u hu (List.mem_cons_of_mem _ hss)) hin

/-- A nonempty text that holds no element of a nonempty separator, and occurs in a text with the
separator in the middle, occurs before the separator or after it. -/
theorem infix_of_infix_append_sep {q sep : List α} (hq : q ≠ []) (hsep : sep ≠ [])
    (hdis : ∀ u ∈ q, u ∉ sep) (y : List α) (x : List α) (h : q <:+: x ++ (sep ++ y)) :
    q <:+: x ∨ q <:+: y := by
  induction x with
  | nil => exact Or.inr (infix_of_infix_sep_append hq y sep hdis h)
  | cons a x ih =>
    rcases List.infix_cons_iff.mp h with hpre | hin
    · exact Or.inl (prefix_of_prefix_append_sep hsep hdis (a :: x) y hpre).isInfix
    · rcases ih hin with hx | hy
      · exact Or.inl (hx.trans (List.suffix_cons a x).isInfix)
      · exact Or.inr hy

/-- Pieces joined by a nonempty separator that a nonempty text shares no element with: the text
occurs in the join only inside a piece. -/
theorem infix_intercalate {q sep : List α} (hq : q ≠ []) (hsep : sep ≠ [])
    (hdis : ∀ u ∈ q, u ∉ sep) {pieces : List (List α)} (h : q <:+: sep.intercalate pieces) :
    ∃ piece ∈ pieces, q <:+: piece := by
  induction pieces with
  | nil => exact absurd (List.eq_nil_of_infix_nil h) hq
  | cons a rest ih =>
    cases rest with
    | nil => exact ⟨a, List.mem_singleton_self a, by simpa using h⟩
    | cons b rest =>
      rw [List.intercalate_cons_cons, List.append_assoc] at h
      rcases infix_of_infix_append_sep hq hsep hdis _ a h with ha | hrest
      · exact ⟨a, List.mem_cons_self, ha⟩
      · obtain ⟨piece, hpiece, hin⟩ := ih hrest
        exact ⟨piece, List.mem_cons_of_mem _ hpiece, hin⟩

end Literal

namespace Table

/-- Every replacement is nonempty and holds no unit that a pattern holds. Text a rule puts in
then neither holds a pattern nor joins two pieces into one that does. -/
def InertReplacements (rules : List Rule) : Prop :=
  ∀ r ∈ rules, r.replacement ≠ "" ∧
    ∀ q ∈ rules, ∀ u ∈ Text.units r.replacement, u ∉ Text.units q.pattern

/-- `InertReplacements` as a check that runs. -/
def inertCheck (rules : List Rule) : Bool :=
  rules.all fun r => r.replacement != "" && rules.all fun q =>
    (Text.units r.replacement).all fun u => !(Text.units q.pattern).contains u

theorem inertReplacements_iff (rules : List Rule) :
    InertReplacements rules ↔ inertCheck rules = true := by
  simp [InertReplacements, inertCheck]

instance (rules : List Rule) : Decidable (InertReplacements rules) :=
  decidable_of_iff _ (inertReplacements_iff rules).symm

/-- The units of an applied table are those its rules leave. -/
theorem units_apply (T : Table) (text : String) :
    Text.units (T.apply text) = (runRules T.rules (Text.units text)).1 := by
  by_cases hnil : (runRules T.rules (Text.units text)).2 = []
  · simp [apply, applyWithStats, hnil, runRules_of_hits_nil hnil]
  · simp [apply, applyWithStats, hnil, Text.units_ofUnits]

section Inert

variable {rules : List Rule} (inert : InertReplacements rules)
  (nonempty : ∀ r ∈ rules, r.pattern ≠ "")
include inert nonempty

/-- Joining the pieces a rule cuts with its inert replacement: a pattern occurs in the join only
if it occurs in a piece. -/
theorem not_infix_join {r q : Rule} (hr : r ∈ rules) (hq : q ∈ rules) {units : List UInt16}
    (hpieces : ∀ piece ∈ r.cut units, ¬ Text.units q.pattern <:+: piece) :
    ¬ Text.units q.pattern <:+: (Text.units r.replacement).intercalate (r.cut units) := by
  intro hin
  obtain ⟨piece, hpiece, hin⟩ := Literal.infix_intercalate (Text.units_ne_nil (nonempty q hq))
    (Text.units_ne_nil (inert r hr).1) (fun u hu hsep => (inert r hr).2 q hq u hsep hu) hin
  exact hpieces piece hpiece hin

/-- Running rules of an inert table: a pattern of the table that did not occur before does not
occur after, and neither does the pattern of any rule that ran. -/
theorem runRules_settles : ∀ (rs : List Rule), (∀ r ∈ rs, r ∈ rules) → ∀ (units : List UInt16),
    ∀ q ∈ rules, (¬ Text.units q.pattern <:+: units ∨ q ∈ rs) →
      ¬ Text.units q.pattern <:+: (runRules rs units).1 := by
  intro rs
  induction rs with
  | nil =>
    intro _ units q _ hq
    simpa [runRules] using hq
  | cons r rs ih =>
    intro hrs units q hq hbefore
    have hr : r ∈ rules := hrs r List.mem_cons_self
    have hrs' : ∀ x ∈ rs, x ∈ rules := fun x hx => hrs x (List.mem_cons_of_mem _ hx)
    have hpat : Text.units r.pattern ≠ [] := Text.units_ne_nil (nonempty r hr)
    by_cases hn : (r.cut units).length - 1 = 0
    · -- the rule does not occur and leaves the units as they are
      have hnot : ¬ Text.units r.pattern <:+: units := (Literal.occurrences_eq_zero_iff hpat).mp hn
      simp only [runRules, hn, if_true]
      refine ih hrs' units q hq ?_
      rcases hbefore with hbefore | hmem
      · exact Or.inl hbefore
      · rcases List.mem_cons.mp hmem with rfl | hmem
        · exact Or.inl hnot
        · exact Or.inr hmem
    · -- the rule joins its pieces: its own pattern is in none of them, nor any pattern that
      -- was in none of the units
      simp only [runRules, hn, if_false]
      by_cases hlater : q ∈ rs
      · exact ih hrs' _ q hq (Or.inr hlater)
      · refine ih hrs' _ q hq (Or.inl (not_infix_join inert nonempty hr hq fun piece hpiece => ?_))
        rcases hbefore with hbefore | hmem
        · exact fun hin => hbefore (hin.trans (by
            rw [← Literal.intercalate_split (Text.units r.pattern) units]
            exact Literal.infix_intercalate_of_mem _ hpiece))
        · rcases List.mem_cons.mp hmem with rfl | hmem
          · exact Literal.not_infix_of_mem_split hpat units piece hpiece
          · exact absurd hmem hlater

end Inert

/-- A table whose replacements are inert settles a text in one pass: no pattern of it occurs in
what it gives, so applying it again finds nothing, counts nothing and changes nothing. -/
theorem applyWithStats_apply_of_inert (T : Table) (inert : InertReplacements T.rules)
    (text : String) :
    (∀ r ∈ T.rules, ¬ Text.units r.pattern <:+: Text.units (T.apply text)) ∧
      T.applyWithStats (T.apply text) = ⟨T.apply text, []⟩ ∧
      (T.applyWithStats (T.apply text)).replacements = 0 ∧
      T.apply (T.apply text) = T.apply text := by
  have hnone : ∀ r ∈ T.rules, ¬ Text.units r.pattern <:+: Text.units (T.apply text) := by
    intro r hr
    rw [units_apply]
    exact runRules_settles inert T.pattern_ne T.rules (fun _ h => h) _ r hr (Or.inr hr)
  have hsecond : T.applyWithStats (T.apply text) = ⟨T.apply text, []⟩ := by
    simp [applyWithStats, runRules_of_not_occurs T.rules hnone]
  refine ⟨hnone, hsecond, by rw [hsecond]; rfl, by rw [apply, hsecond]⟩

/-- Two rules whose replacements are letters neither pattern holds settle `aabb` in one pass. -/
theorem letters_settle_in_one_pass :
    let T : Table := ⟨[⟨"ab", "x"⟩, ⟨"b", "y"⟩], by decide, by decide⟩
    InertReplacements T.rules ∧
      (∀ r ∈ T.rules, ¬ Text.units r.pattern <:+: Text.units (T.apply "aabb")) ∧
      T.applyWithStats (T.apply "aabb") = ⟨T.apply "aabb", []⟩ ∧
      (T.applyWithStats (T.apply "aabb")).replacements = 0 ∧
      T.apply (T.apply "aabb") = T.apply "aabb" := by
  intro T
  have inert : InertReplacements T.rules := by decide
  exact ⟨inert, applyWithStats_apply_of_inert T inert "aabb"⟩

end Table

end Reword
