import Mathlib
import Reword.Substitution.Bundled
/-!
# When a table leaves a text as it is

A table can leave a text unchanged although its patterns occur in it: `a → b` followed by
`b → a` puts every `a` back. That cannot happen when every pattern holds a unit that no
replacement holds (`Consumes`). Each occurrence replaced then takes away one such unit and no
replacement puts one back, so a run in which any rule occurs ends with fewer of them than it
began with, and the text cannot be the one given.

**The law** (`apply_eq_self_iff`): for such a table, applying it leaves a text as it is exactly
when none of its patterns occurs in the text.

The bundled table is such a table: its replacements are ASCII and each of its patterns holds a
unit beyond ASCII (`bundled_consumes`). So a second pass over its own output changes that
output exactly when one of its patterns occurs in it (`bundled_apply_apply_eq_iff`), and that
does happen: `Winlatorを初期化中初期化` becomes `Initializing Winlator初期化`, in which the
earlier rule `Winlator初期化` now occurs, and a second pass writes
`Initializing Winlator initialization` (`bundled_apply_not_idempotent`).

What this does not decide: which outputs hold a pattern. The replacement `Initializing Winlator`
ends with the start of two patterns, and `Please enter API Key` with the start of three; no
theorem here lists the patterns that can meet such an end.
-/

namespace Reword

namespace Table

/-- Whether some replacement of the rules holds a unit. -/
def inserts (rules : List Rule) (u : UInt16) : Bool :=
  rules.any fun r => (Text.units r.replacement).contains u

/-- The number of units of a text that no replacement of the rules holds. -/
def foreignUnits (rules : List Rule) (units : List UInt16) : Nat :=
  units.countP fun u => !inserts rules u

/-- Every pattern of the rules holds a unit that no replacement of them holds. -/
def Consumes (rules : List Rule) : Prop :=
  ∀ r ∈ rules, ∃ u ∈ Text.units r.pattern, inserts rules u = false

/-- Patterns that hold a unit at or above a bound, and replacements whose units all lie below
it, consume. -/
theorem consumes_of_bound (rules : List Rule) (bound : Nat)
    (below : ∀ r ∈ rules, ∀ u ∈ Text.units r.replacement, u.toNat < bound)
    (above : ∀ r ∈ rules, ∃ u ∈ Text.units r.pattern, bound ≤ u.toNat) : Consumes rules := by
  intro r hr
  obtain ⟨u, hu, hbound⟩ := above r hr
  refine ⟨u, hu, ?_⟩
  simp only [inserts, List.any_eq_false, List.contains_iff_mem]
  intro r' hr' hmem
  have := below r' hr' u hmem
  omega

private theorem countP_intercalate {α : Type} (f : α → Bool) (sep : List α) :
    (pieces : List (List α)) →
      (sep.intercalate pieces).countP f =
        (pieces.map (·.countP f)).sum + (pieces.length - 1) * sep.countP f
  | [] => by simp
  | [piece] => by simp
  | piece :: next :: rest => by
    rw [List.intercalate_cons_cons, List.countP_append, List.countP_append,
      countP_intercalate f sep (next :: rest)]
    simp only [List.map_cons, List.sum_cons, List.length_cons, Nat.add_sub_cancel]
    rw [Nat.add_mul, Nat.one_mul]
    omega

/-- A replacement of the rules holds no foreign unit. -/
theorem foreignUnits_replacement {rules : List Rule} {r : Rule} (hr : r ∈ rules) :
    foreignUnits rules (Text.units r.replacement) = 0 := by
  simp only [foreignUnits, List.countP_eq_zero, Bool.not_eq_true', Bool.not_eq_false]
  intro u hu
  exact List.any_eq_true.mpr ⟨r, hr, List.contains_iff_mem.mpr hu⟩

/-- Each occurrence a rule of a consuming table replaces takes away at least one foreign unit. -/
theorem foreignUnits_replaceAll_add_le {rules : List Rule} (consumes : Consumes rules)
    {r : Rule} (hr : r ∈ rules) (units : List UInt16) :
    foreignUnits rules (Literal.replaceAll (Text.units r.pattern) (Text.units r.replacement) units) +
        Literal.occurrences (Text.units r.pattern) units ≤
      foreignUnits rules units := by
  obtain ⟨u, hu, hfree⟩ := consumes r hr
  let pieces := Literal.split (Text.units r.pattern) units
  have hpattern : 1 ≤ foreignUnits rules (Text.units r.pattern) :=
    List.countP_pos_iff.mpr ⟨u, hu, by simp [hfree]⟩
  -- the text is its pieces joined by the pattern, the result its pieces joined by the replacement
  have hbefore : foreignUnits rules units =
      (pieces.map (foreignUnits rules)).sum +
        (pieces.length - 1) * foreignUnits rules (Text.units r.pattern) := by
    conv => lhs; rw [← Literal.intercalate_split (Text.units r.pattern) units]
    exact countP_intercalate _ _ pieces
  have hafter : foreignUnits rules
      (Literal.replaceAll (Text.units r.pattern) (Text.units r.replacement) units) =
        (pieces.map (foreignUnits rules)).sum := by
    have hrep := foreignUnits_replacement hr
    simp only [Literal.replaceAll, foreignUnits] at hrep ⊢
    rw [countP_intercalate, hrep, Nat.mul_zero, Nat.add_zero]
    rfl
  have hmul : pieces.length - 1 ≤
      (pieces.length - 1) * foreignUnits rules (Text.units r.pattern) :=
    Nat.le_mul_of_pos_right _ hpattern
  have hocc : Literal.occurrences (Text.units r.pattern) units = pieces.length - 1 := rfl
  rw [hocc, hafter, hbefore]
  omega

/-- A run of rules of a consuming table loses a foreign unit for every rule that occurred. -/
theorem foreignUnits_runRules_add_le {rules : List Rule} (consumes : Consumes rules) :
    (rs : List Rule) → (∀ r ∈ rs, r ∈ rules) → (units : List UInt16) →
      foreignUnits rules (runRules rs units).1 + (runRules rs units).2.length ≤
        foreignUnits rules units
  | [], _, units => by simp [runRules]
  | r :: rs, hsub, units => by
    have hrest := foreignUnits_runRules_add_le consumes rs
      (fun r' hr' => hsub r' (List.mem_cons_of_mem _ hr'))
    by_cases hn : (r.cut units).length - 1 = 0
    · simp only [runRules, hn, if_true]
      exact hrest units
    · have hstep := foreignUnits_replaceAll_add_le consumes (hsub r List.mem_cons_self) units
      have hnext := hrest (Literal.replaceAll (Text.units r.pattern) (Text.units r.replacement) units)
      have hcount : Literal.occurrences (Text.units r.pattern) units ≠ 0 := hn
      simp only [runRules, hn, if_false, List.length_cons]
      simp only [Literal.replaceAll, Rule.cut] at hnext hstep ⊢
      omega

/-- Rules none of whose patterns occurs leave the units as they are and count nothing. -/
theorem runRules_of_not_occurs {units : List UInt16} :
    (rs : List Rule) → (∀ r ∈ rs, ¬ Text.units r.pattern <:+: units) →
      runRules rs units = (units, [])
  | [], _ => rfl
  | r :: rs, hnone => by
    have hne : Text.units r.pattern ≠ [] := fun h =>
      hnone r List.mem_cons_self (h ▸ List.nil_infix)
    have hzero : (r.cut units).length - 1 = 0 :=
      (Literal.occurrences_eq_zero_iff hne).mpr (hnone r List.mem_cons_self)
    simp only [runRules, hzero, if_true]
    exact runRules_of_not_occurs rs (fun r' hr' => hnone r' (List.mem_cons_of_mem _ hr'))

/-- Rules one of whose nonempty patterns occurs count at least that rule's occurrences. -/
theorem runRules_hits_ne_nil {units : List UInt16} :
    (rs : List Rule) → (∃ r ∈ rs, r.pattern ≠ "" ∧ Text.units r.pattern <:+: units) →
      (runRules rs units).2 ≠ []
  | [], ⟨_, hr, _⟩ => absurd hr List.not_mem_nil
  | r :: rs, ⟨r', hr', hne, hocc⟩ => by
    by_cases hn : (r.cut units).length - 1 = 0
    · -- the first rule does not occur, so the occurring one is further on
      simp only [runRules, hn, if_true]
      apply runRules_hits_ne_nil rs
      rcases List.mem_cons.mp hr' with rfl | hrs
      · exact absurd hocc ((Literal.occurrences_eq_zero_iff (Text.units_ne_nil hne)).mp hn)
      · exact ⟨r', hrs, hne, hocc⟩
    · simp [runRules, hn]

/-- A table that consumes leaves a text as it is exactly when none of its patterns occurs in
the text. -/
theorem apply_eq_self_iff (T : Table) (consumes : Consumes T.rules) (text : String) :
    T.apply text = text ↔ ∀ r ∈ T.rules, ¬ Text.units r.pattern <:+: Text.units text := by
  constructor
  · intro hfixed r hr hocc
    -- some rule occurs, so the run loses a foreign unit and cannot give the text back
    have hhits : (runRules T.rules (Text.units text)).2 ≠ [] :=
      runRules_hits_ne_nil T.rules ⟨r, hr, T.pattern_ne r hr, hocc⟩
    have hloss := foreignUnits_runRules_add_le consumes T.rules (fun _ h => h) (Text.units text)
    have hlen : 0 < (runRules T.rules (Text.units text)).2.length :=
      List.length_pos_iff.mpr hhits
    have hunits : Text.units text = (runRules T.rules (Text.units text)).1 := by
      have := congrArg Text.units hfixed
      simp only [apply, applyWithStats, List.isEmpty_iff, hhits, if_false,
        Text.units_ofUnits] at this
      exact this.symm
    rw [← hunits] at hloss
    omega
  · intro hnone
    simp [apply, applyWithStats, runRules_of_not_occurs T.rules hnone]

/-! ## The bundled table -/

theorem bundled_rules : bundled.rules = bundledRules := by
  decide +kernel

/-- The bundled replacements are nonempty ASCII. -/
theorem bundled_replacements_ascii :
    ∀ r ∈ bundled.rules, Text.units r.replacement ≠ [] ∧
      ∀ u ∈ Text.units r.replacement, u.toNat < 0x80 := by
  rw [bundled_rules]
  -- checked as a Boolean fold over the rules, which the kernel runs as a loop
  have hascii : (bundledRules.all fun r => !(Text.units r.replacement).isEmpty &&
      (Text.units r.replacement).all fun u => decide (u.toNat < 0x80)) = true := by
    decide +kernel
  simpa using hascii

/-- Each bundled pattern holds a unit beyond ASCII, which no bundled replacement holds. -/
theorem bundled_consumes : Consumes bundled.rules := by
  have hbeyond : (bundledRules.all fun r =>
      (Text.units r.pattern).any fun u => decide (0x80 ≤ u.toNat)) = true := by
    decide +kernel
  apply consumes_of_bound bundled.rules 0x80 fun r hr => (bundled_replacements_ascii r hr).2
  rw [bundled_rules]
  simpa using hbeyond

/-- A second pass of the bundled table changes its own output exactly when one of the bundled
patterns occurs in that output. -/
theorem bundled_apply_apply_eq_iff (t : String) :
    bundled.apply (bundled.apply t) = bundled.apply t ↔
      ∀ r ∈ bundled.rules, ¬ Text.units r.pattern <:+: Text.units (bundled.apply t) :=
  apply_eq_self_iff bundled bundled_consumes (bundled.apply t)

/-- The bundled table is not idempotent: its replacement `Initializing Winlator` followed by
`初期化` that no rule took is an occurrence of the earlier pattern `Winlator初期化`. -/
theorem bundled_apply_not_idempotent :
    bundled.apply "Winlatorを初期化中初期化" = "Initializing Winlator初期化" ∧
      bundled.apply "Initializing Winlator初期化" = "Initializing Winlator initialization" := by
  constructor <;> decide +kernel

end Table

end Reword
