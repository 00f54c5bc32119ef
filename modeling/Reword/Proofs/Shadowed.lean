import Mathlib
import Reword.Proofs.Commuting
/-!
# Rules that never fire

A rule that comes after a rule whose pattern lies inside its own finds its pattern only where
the earlier pattern occurs again, and the earlier rule took every occurrence of that out. When
no replacement from the earlier rule on holds a unit of the earlier pattern, nothing puts one
back (`Table.runRules_keeps_out`), so the later rule never occurs: its hit count is zero on
every text (`Table.hitCount_eq_zero_of_shadowed`). A rule that no earlier pattern lies inside
does fire, on its own pattern, which the rules before it pass over
(`Table.hitCount_pos_of_unshadowed`).

The bundled table is ordered so that some longer phrases come after words they contain. Its
replacements are ASCII (`Table.bundled_replacements_ascii`), and every bundled pattern that lies
inside a later one is made of units beyond ASCII (`Table.shadowsBeyondAscii`), so the two
lemmas decide every bundled rule.

**The law** (`Table.bundled_rule_fires_iff`): a bundled rule replaces an occurrence on some
text exactly when no earlier bundled pattern lies inside its pattern. Thirty-five of the 115
rules have such an earlier pattern and never fire; `検索エラー`, listed after `エラー`, is one
(`Table.bundled_search_error_never_fires`).
-/

namespace Reword

namespace Rule

/-- A rule whose replacement is nonempty and shares no unit with a text puts no occurrence of
that text anywhere. -/
theorem not_infix_rewrite {q : List UInt16} (hq : q ≠ []) {r : Rule}
    (hrep : Text.units r.replacement ≠ [] ∧ ∀ u ∈ Text.units r.replacement, u ∉ q)
    {units : List UInt16} (h : ¬ q <:+: units) : ¬ q <:+: r.rewrite units :=
  Literal.not_infix_replaceAll hq
    (Literal.clear_of_disjoint hq hrep.1 fun u hu hrepu => hrep.2 u hrepu hu) h

/-- A rule whose replacement is nonempty and shares no unit with its pattern leaves no occurrence
of its pattern. -/
theorem not_infix_rewrite_self {r : Rule} (hp : r.pattern ≠ "")
    (hrep : Text.units r.replacement ≠ [] ∧ ∀ u ∈ Text.units r.replacement, u ∉ Text.units r.pattern)
    (units : List UInt16) : ¬ Text.units r.pattern <:+: r.rewrite units := by
  intro hin
  -- an occurrence in the join lies in a piece, and the scan left none in any piece
  obtain ⟨piece, hpiece, hin⟩ := (Literal.clear_of_disjoint (Text.units_ne_nil hp) hrep.1
    fun u hu hrepu => hrep.2 u hrepu hu).infix_intercalate (Text.units_ne_nil hp) hin
  exact Literal.not_infix_of_mem_split (Text.units_ne_nil hp) units piece hpiece hin

end Rule

namespace Table

/-- Rules whose replacements are nonempty and share no unit with a text put no occurrence of it
back into units that have none. -/
theorem runRules_keeps_out {q : List UInt16} (hq : q ≠ []) (rs : List Rule)
    (hrs : ∀ x ∈ rs, Text.units x.replacement ≠ [] ∧ ∀ u ∈ Text.units x.replacement, u ∉ q)
    {units : List UInt16} (h : ¬ q <:+: units) : ¬ q <:+: (runRules rs units).1 := by
  induction rs generalizing units with
  | nil => exact h
  | cons x rs ih =>
    rw [runRules_cons]
    exact ih (fun y hy => hrs y (List.mem_cons_of_mem _ hy))
      (Rule.not_infix_rewrite hq (hrs x List.mem_cons_self) h)

/-- A rule placed after one whose pattern lies inside its own never fires, when the replacements
from the earlier rule up to it share no unit with the earlier pattern. -/
theorem hitCount_eq_zero_of_shadowed (T : Table) {pre mid post : List Rule} {e r : Rule}
    (hT : T.rules = pre ++ e :: mid ++ r :: post)
    (hin : Text.units e.pattern <:+: Text.units r.pattern)
    (hrep : ∀ x ∈ e :: mid,
      Text.units x.replacement ≠ [] ∧ ∀ u ∈ Text.units x.replacement, u ∉ Text.units e.pattern)
    (text : String) : (T.applyWithStats text).hitCount r.pattern = 0 := by
  have hnodup := T.patterns_nodup
  rw [hT, List.map_append, List.nodup_append] at hnodup
  have hfresh : r.pattern ∉ (pre ++ e :: mid).map Rule.pattern := fun hm =>
    hnodup.2.2 _ hm _ List.mem_cons_self rfl
  have hlater : r.pattern ∉ post.map Rule.pattern :=
    (List.nodup_cons.mp (by simpa using hnodup.2.1)).1
  have he := T.pattern_ne e (by simp [hT])
  -- after the earlier rule and the ones between, the earlier pattern is gone, and so is the later
  have hgone : ¬ Text.units e.pattern <:+: (runRules (pre ++ e :: mid) (Text.units text)).1 := by
    simp only [runRules_append, runRules_cons]
    exact runRules_keeps_out (Text.units_ne_nil he) mid
      (fun x hx => hrep x (List.mem_cons_of_mem _ hx))
      (Rule.not_infix_rewrite_self he (hrep e List.mem_cons_self) _)
  have hzero : r.count (runRules (pre ++ e :: mid) (Text.units text)).1 = 0 :=
    (Literal.occurrences_eq_zero_iff (Text.units_ne_nil (T.pattern_ne r (by simp [hT])))).mpr
      fun hr => hgone (hin.trans hr)
  rw [hitCount_applyWithStats, hT, runRules_append, runRules_cons, List.lookup_append,
    lookup_runRules_of_not_mem _ hfresh, Option.none_or]
  simp [Rule.hit, hzero, lookup_runRules_of_not_mem post hlater]

/-- A rule that no earlier pattern lies inside fires on its own pattern. -/
theorem hitCount_pos_of_unshadowed (T : Table) {pre post : List Rule} {r : Rule}
    (hT : T.rules = pre ++ r :: post)
    (hfree : ∀ e ∈ pre, ¬ Text.units e.pattern <:+: Text.units r.pattern) :
    0 < (T.applyWithStats r.pattern).hitCount r.pattern := by
  have hpos : r.count (Text.units r.pattern) ≠ 0 := fun hz =>
    (Literal.occurrences_eq_zero_iff (Text.units_ne_nil (T.pattern_ne r (by simp [hT])))).mp hz
      (List.infix_refl _)
  rw [hitCount_applyWithStats, hT, runRules_append, runRules_of_not_occurs pre hfree,
    runRules_cons]
  simp [Rule.hit, hpos, Nat.pos_of_ne_zero hpos]

/-! ## The bundled table -/

/-- Every pattern that holds an ASCII unit lies inside no later pattern. -/
def shadowsBeyondAscii : List Rule → Bool
  | [] => true
  | e :: rest =>
    ((Text.units e.pattern).all (fun u => decide (0x80 ≤ u.toNat)) ||
        rest.all fun r => !decide (Text.units e.pattern <:+: Text.units r.pattern)) &&
      shadowsBeyondAscii rest

/-- Under `shadowsBeyondAscii`, a pattern that lies inside a later one is made of units beyond
ASCII. -/
theorem beyondAscii_of_shadows {rules pre post : List Rule} {e r : Rule}
    (h : shadowsBeyondAscii rules = true) (hrules : rules = pre ++ r :: post) (he : e ∈ pre)
    (hin : Text.units e.pattern <:+: Text.units r.pattern) :
    ∀ u ∈ Text.units e.pattern, 0x80 ≤ u.toNat := by
  subst hrules
  induction pre with
  | nil => exact absurd he List.not_mem_nil
  | cons x pre ih =>
    simp only [List.cons_append, shadowsBeyondAscii, Bool.and_eq_true, Bool.or_eq_true,
      List.all_eq_true, decide_eq_true_eq, Bool.not_eq_true', decide_eq_false_iff_not] at h
    rcases List.mem_cons.mp he with rfl | he
    · rcases h.1 with hbeyond | hnone
      · exact hbeyond
      · exact absurd hin (hnone r (by simp))
    · exact ih he h.2

theorem bundled_shadowsBeyondAscii : shadowsBeyondAscii bundled.rules = true := by
  rw [bundled_rules]
  decide +kernel

/-- An earlier bundled pattern that lies inside a later one shares no unit with any bundled
replacement. -/
theorem bundled_replacements_miss {pre post : List Rule} {e r : Rule}
    (hrules : bundled.rules = pre ++ r :: post) (he : e ∈ pre)
    (hin : Text.units e.pattern <:+: Text.units r.pattern) :
    ∀ x ∈ bundled.rules,
      Text.units x.replacement ≠ [] ∧ ∀ u ∈ Text.units x.replacement, u ∉ Text.units e.pattern := by
  have hbeyond := beyondAscii_of_shadows bundled_shadowsBeyondAscii hrules he hin
  intro x hx
  obtain ⟨hne, hascii⟩ := bundled_replacements_ascii x hx
  exact ⟨hne, fun u hu hue => by have := hascii u hu; have := hbeyond u hue; omega⟩

/-- A bundled rule replaces an occurrence on some text exactly when no earlier bundled pattern
lies inside its pattern. -/
theorem bundled_rule_fires_iff {pre post : List Rule} {r : Rule}
    (hrules : bundled.rules = pre ++ r :: post) :
    (∃ text, 0 < (bundled.applyWithStats text).hitCount r.pattern) ↔
      ∀ e ∈ pre, ¬ Text.units e.pattern <:+: Text.units r.pattern := by
  constructor
  · rintro ⟨text, hpos⟩ e he hin
    obtain ⟨before, mid, rfl⟩ := List.append_of_mem he
    have hT : bundled.rules = before ++ e :: mid ++ r :: post := by simp [hrules]
    have hzero := hitCount_eq_zero_of_shadowed bundled hT hin
      (fun x hx => bundled_replacements_miss hrules he hin x
        (by rw [hrules]; exact List.mem_append_left _ (List.mem_append_right _ hx))) text
    omega
  · intro hfree
    exact ⟨r.pattern, hitCount_pos_of_unshadowed bundled hrules hfree⟩

/-- The bundled rule `エラー → Error`, fifth of the table, fires. -/
theorem bundled_error_rule_fires :
    bundled.rules = bundledRules.take 4 ++ ⟨"エラー", "Error"⟩ :: bundledRules.drop 5 ∧
      ((∃ text, 0 < (bundled.applyWithStats text).hitCount "エラー") ↔
        ∀ e ∈ bundledRules.take 4, ¬ Text.units e.pattern <:+: Text.units "エラー") := by
  have hrules : bundled.rules = bundledRules.take 4 ++ ⟨"エラー", "Error"⟩ :: bundledRules.drop 5 := by
    rw [bundled_rules]
    rfl
  -- applied before it meets the goal, so that `r` is read off `hrules` and not off the goal
  have hfires := bundled_rule_fires_iff hrules
  exact ⟨hrules, hfires⟩

/-- `検索エラー → Search error` comes after `エラー → Error` in the bundled table and never
fires. -/
theorem bundled_search_error_never_fires :
    ⟨"検索エラー", "Search error"⟩ ∈ bundled.rules ∧
      ∀ text, (bundled.applyWithStats text).hitCount "検索エラー" = 0 := by
  have hrules : bundled.rules = bundledRules.take 4 ++ ⟨"エラー", "Error"⟩ ::
      (bundledRules.drop 5).take 90 ++ ⟨"検索エラー", "Search error"⟩ :: bundledRules.drop 96 := by
    rw [bundled_rules]
    rfl
  have hin : Text.units "エラー" <:+: Text.units "検索エラー" := by decide +kernel
  have hbeyond : ((Text.units "エラー").all fun u => decide (0x80 ≤ u.toNat)) = true := by
    decide +kernel
  refine ⟨by rw [hrules]; simp, fun text => ?_⟩
  refine hitCount_eq_zero_of_shadowed bundled hrules hin (fun x hx => ?_) text
  have hx' : x ∈ bundled.rules := by
    rw [hrules]
    exact List.mem_append_left _ (List.mem_append_right _ hx)
  obtain ⟨hne, hascii⟩ := bundled_replacements_ascii x hx'
  refine ⟨hne, fun u hu hue => ?_⟩
  have := hascii u hu
  have := (List.all_eq_true.mp hbeyond) u hue
  simp only [decide_eq_true_eq] at this
  omega

end Table

end Reword
