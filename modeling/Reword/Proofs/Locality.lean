import Mathlib
import Reword.Proofs.OnePass
/-!
# Where an occurrence can stand

A rule finds its pattern only where the pattern occurs whole. Where no occurrence of a pattern
can reach across the seam between two texts (`Literal.NoStraddle`), the scan that replaces it
meets the two texts one after the other and takes from each what it would take alone
(`Literal.scanReplace_append`). A pattern keeps clear of a text (`Literal.Clear`) when, wherever
that text stands, every occurrence of the pattern lies wholly before it or wholly after it; a
text that shares no unit with the pattern is such a text (`Literal.clear_of_disjoint`). Replacing
then passes over the text as it is and treats each side alone
(`Literal.replaceAll_around`), and so on each piece of a join (`Literal.replaceAll_intercalate`).

A run of rules is a rule's rewrite followed by the run of the rest (`Table.runRules_cons`), the
rule listing its hit only when it occurred. The hit count of a pattern is what the hits say of
it, zero when they say nothing (`Applied.hitCount`).

**The law** (`Table.applyWithStats_around_unit`): a unit that no pattern of a table holds cuts
every text into two that the table translates apart: the units of the result are those of the
left side translated, the unit, and those of the right side translated, and the replacements
and the hit count of every pattern are those of the two sides added up. Since no bundled pattern
holds a line feed, the bundled table translates a text line by line
(`Table.bundled_translates_line_by_line`).
-/

namespace Reword

namespace Literal

variable {α : Type}

/-- No occurrence of the pattern in `x ++ y` reaches across the seam between `x` and `y`: each
ends by the end of `x` or starts after it. -/
def NoStraddle (pattern x y : List α) : Prop :=
  ∀ a b : List α, a ++ pattern ++ b = x ++ y →
    a.length + pattern.length ≤ x.length ∨ x.length ≤ a.length

/-- A pattern keeps clear of a text when, wherever the text stands, every occurrence of the
pattern lies wholly before it or wholly after it: it neither holds the text nor overlaps it. -/
def Clear (pattern w : List α) : Prop :=
  ∀ u v a b : List α, a ++ pattern ++ b = u ++ w ++ v →
    a.length + pattern.length ≤ u.length ∨ u.length + w.length ≤ a.length

section Clear

variable {p w : List α}

theorem Clear.noStraddle_after (h : Clear p w) (x y : List α) : NoStraddle p (x ++ w) y := by
  intro a b hab
  have := h x y a b hab
  rw [List.length_append]
  omega

theorem Clear.noStraddle_before (h : Clear p w) (x y : List α) : NoStraddle p x (w ++ y) := by
  intro a b hab
  have := h x y a b (by rw [hab, List.append_assoc])
  omega

/-- A pattern that keeps clear of a text does not occur in it. -/
theorem Clear.not_infix (hp : p ≠ []) (h : Clear p w) : ¬ p <:+: w := by
  rintro ⟨a, b, hab⟩
  have hlen := congrArg List.length hab
  have hpos := List.length_pos_iff.mpr hp
  have := h [] [] a b (by simpa using hab)
  simp only [List.length_append, List.length_nil] at hlen this
  omega

/-- An occurrence of a pattern around a text it keeps clear of lies on one side of it. -/
theorem Clear.infix_or (h : Clear p w) {u v : List α} (hin : p <:+: u ++ w ++ v) :
    p <:+: u ∨ p <:+: v := by
  obtain ⟨a, b, hab⟩ := hin
  have hlen := congrArg List.length hab
  simp only [List.length_append] at hlen
  rcases h u v a b hab with hle | hge
  · -- the occurrence ends within `u`: it and what precedes it start `u`
    have hstart : a ++ p <+: u := by
      refine List.prefix_of_prefix_length_le ⟨b, hab⟩ ?_ (by simpa using hle)
      rw [List.append_assoc]
      exact List.prefix_append _ _
    exact Or.inl ((List.infix_append a p []).trans (by simpa using hstart.isInfix))
  · -- the occurrence starts after `w`: it and what follows it end `v`
    have hend : p ++ b <:+ v := by
      refine List.suffix_of_suffix_length_le ⟨a, by rw [← hab, List.append_assoc]⟩
        (List.suffix_append _ _) (by simp only [List.length_append]; omega)
    exact Or.inr ((List.prefix_append p b).isInfix.trans hend.isInfix)

/-- An occurrence of a pattern in pieces joined by a text it keeps clear of lies in a piece. -/
theorem Clear.infix_intercalate (hp : p ≠ []) (h : Clear p w) {pieces : List (List α)}
    (hin : p <:+: w.intercalate pieces) : ∃ piece ∈ pieces, p <:+: piece := by
  induction pieces with
  | nil => exact absurd (List.eq_nil_of_infix_nil hin) hp
  | cons x rest ih =>
    cases rest with
    | nil => exact ⟨x, List.mem_singleton_self x, by simpa using hin⟩
    | cons y rest =>
      rw [List.intercalate_cons_cons] at hin
      rcases h.infix_or hin with hx | hrest
      · exact ⟨x, List.mem_cons_self, hx⟩
      · obtain ⟨piece, hpiece, hin⟩ := ih hrest
        exact ⟨piece, List.mem_cons_of_mem _ hpiece, hin⟩

/-- A nonempty text that shares no element with a pattern is kept clear of: an occurrence that
overlapped it would hold one of its elements. -/
theorem clear_of_disjoint (hp : p ≠ []) (hw : w ≠ []) (hdis : ∀ x ∈ p, x ∉ w) : Clear p w := by
  intro u v a b hab
  by_contra hover
  simp only [not_or, not_le] at hover
  -- the place where the occurrence and the text overlap first
  let k := max a.length u.length
  have hppos := List.length_pos_iff.mpr hp
  have hwpos := List.length_pos_iff.mpr hw
  have hleft : (a ++ p ++ b)[k]? = p[k - a.length]? := by
    rw [List.getElem?_append_left (by simp only [List.length_append]; omega),
      List.getElem?_append_right (by omega)]
  have hright : (u ++ w ++ v)[k]? = w[k - u.length]? := by
    rw [List.getElem?_append_left (by simp only [List.length_append]; omega),
      List.getElem?_append_right (by omega)]
  obtain ⟨x, hx⟩ : ∃ x, p[k - a.length]? = some x :=
    ⟨_, List.getElem?_eq_getElem (by omega)⟩
  have hxw : w[k - u.length]? = some x := by rw [← hright, ← hab, hleft, hx]
  exact hdis x (List.mem_of_getElem? hx) (List.mem_of_getElem? hxw)

end Clear

variable [DecidableEq α]

/-! ## The scan over a seam no occurrence crosses -/

theorem scanReplace_of_occurs {p r : List α} {c : α} {rest : List α}
    (h : p ≠ [] ∧ p.isPrefixOf (c :: rest) = true) :
    scanReplace p r (c :: rest) =
      (r ++ (scanReplace p r ((c :: rest).drop p.length)).1,
        (scanReplace p r ((c :: rest).drop p.length)).2 + 1) := by
  rw [scanReplace, dif_pos h]

theorem scanReplace_of_not_occurs {p r : List α} {c : α} {rest : List α}
    (h : ¬(p ≠ [] ∧ p.isPrefixOf (c :: rest) = true)) :
    scanReplace p r (c :: rest) =
      (c :: (scanReplace p r rest).1, (scanReplace p r rest).2) := by
  rw [scanReplace, dif_neg h]

/-- Where no occurrence crosses the seam, the scan of the two texts together is the scan of the
first followed by the scan of the second, and its count is the sum of theirs. -/
theorem scanReplace_append {p r x y : List α} (h : NoStraddle p x y) :
    scanReplace p r (x ++ y) =
      ((scanReplace p r x).1 ++ (scanReplace p r y).1,
        (scanReplace p r x).2 + (scanReplace p r y).2) := by
  induction x using split_induction p with
  | nil => simp [scanReplace]
  | occurs c rest hocc ih =>
    have hpre : p <+: c :: rest := List.isPrefixOf_iff_prefix.mp hocc.2
    obtain ⟨after, hafter⟩ := hpre
    have hdrop : (c :: rest).drop p.length = after := by
      rw [← hafter, List.drop_left]
    -- the occurrence at the front is one of the first text, and the seam stays where it was
    have hocc' : p ≠ [] ∧ p.isPrefixOf (c :: (rest ++ y)) = true :=
      ⟨hocc.1, List.isPrefixOf_iff_prefix.mpr ⟨after ++ y, by
        rw [← List.append_assoc, hafter, List.cons_append]⟩⟩
    have hdrop' : (c :: (rest ++ y)).drop p.length = after ++ y := by
      rw [← List.cons_append, ← hafter, List.append_assoc, List.drop_left]
    have hseam : NoStraddle p after y := by
      intro a b hab
      have := h (p ++ a) b (by
        rw [← hafter, List.append_assoc p after y, ← hab]
        simp only [List.append_assoc])
      have hlen := congrArg List.length hafter
      simp only [List.length_append, List.length_cons] at this hlen ⊢
      omega
    rw [hdrop] at ih
    rw [List.cons_append, scanReplace_of_occurs hocc', hdrop', ih hseam,
      scanReplace_of_occurs hocc, hdrop]
    simp only [List.append_assoc, Prod.mk.injEq, true_and]
    omega
  | passes c rest hpass ih =>
    -- an occurrence at the front of both would lie within the first text
    have hpass' : ¬(p ≠ [] ∧ p.isPrefixOf (c :: (rest ++ y)) = true) := by
      rintro ⟨hp, hpre⟩
      obtain ⟨b, hb⟩ := List.isPrefixOf_iff_prefix.mp hpre
      rcases h [] b (by simpa using hb) with hle | hge
      · refine hpass ⟨hp, List.isPrefixOf_iff_prefix.mpr ?_⟩
        exact List.prefix_of_prefix_length_le ⟨b, hb⟩ (List.prefix_append _ _) (by simpa using hle)
      · simp at hge
    have hseam : NoStraddle p rest y := by
      intro a b hab
      have := h (c :: a) b (by simp [hab])
      simp only [List.length_cons] at this
      omega
    rw [List.cons_append, scanReplace_of_not_occurs hpass', ih hseam,
      scanReplace_of_not_occurs hpass]
    rfl

theorem replaceAll_append {p r x y : List α} (h : NoStraddle p x y) :
    replaceAll p r (x ++ y) = replaceAll p r x ++ replaceAll p r y := by
  have := congrArg Prod.fst (scanReplace_append (r := r) h)
  simpa only [scanReplace_eq] using this

theorem occurrences_append {p x y : List α} (h : NoStraddle p x y) :
    occurrences p (x ++ y) = occurrences p x + occurrences p y := by
  have := congrArg Prod.snd (scanReplace_append (r := []) h)
  simpa only [scanReplace_eq] using this

/-- A text the pattern does not occur in is left as it is. -/
theorem replaceAll_of_not_infix {p r t : List α} (hp : p ≠ []) (h : ¬ p <:+: t) :
    replaceAll p r t = t := by
  rw [replaceAll, split_eq_singleton ((occurrences_eq_zero_iff hp).mpr h),
    List.intercalate_singleton]

/-- Replacing `q` puts no occurrence of `p` anywhere when `p` keeps clear of the replacement. -/
theorem not_infix_replaceAll {p q s : List α} (hp : p ≠ []) (hps : Clear p s) {z : List α}
    (hz : ¬ p <:+: z) : ¬ p <:+: replaceAll q s z := by
  intro hin
  obtain ⟨piece, hpiece, hin⟩ := hps.infix_intercalate hp hin
  refine hz (hin.trans ?_)
  have := infix_intercalate_of_mem q hpiece
  rwa [intercalate_split] at this

section Around

variable {p r w : List α} (hp : p ≠ []) (h : Clear p w)
include hp h

/-- Replacing around a text the pattern keeps clear of replaces on each side and keeps the
text. -/
theorem replaceAll_around (x y : List α) :
    replaceAll p r (x ++ w ++ y) = replaceAll p r x ++ w ++ replaceAll p r y := by
  have hw : NoStraddle p x w := by simpa using h.noStraddle_before x []
  rw [replaceAll_append (h.noStraddle_after x y), replaceAll_append hw,
    replaceAll_of_not_infix hp (h.not_infix hp)]

theorem occurrences_around (x y : List α) :
    occurrences p (x ++ w ++ y) = occurrences p x + occurrences p y := by
  have hw : NoStraddle p x w := by simpa using h.noStraddle_before x []
  have hzero : occurrences p w = 0 := (occurrences_eq_zero_iff hp).mpr (h.not_infix hp)
  rw [occurrences_append (h.noStraddle_after x y), occurrences_append hw, hzero, Nat.add_zero]

/-- Replacing in pieces joined by a text the pattern keeps clear of replaces in each piece. -/
theorem replaceAll_intercalate (pieces : List (List α)) :
    replaceAll p r (w.intercalate pieces) = w.intercalate (pieces.map (replaceAll p r)) := by
  induction pieces with
  | nil => simp [replaceAll]
  | cons x rest ih =>
    cases rest with
    | nil => simp
    | cons y rest =>
      rw [List.intercalate_cons_cons, replaceAll_around hp h, ih]
      simp only [List.map_cons, List.intercalate_cons_cons]

theorem occurrences_intercalate (pieces : List (List α)) :
    occurrences p (w.intercalate pieces) = (pieces.map (occurrences p)).sum := by
  induction pieces with
  | nil => simp [occurrences]
  | cons x rest ih =>
    cases rest with
    | nil => simp
    | cons y rest =>
      rw [List.intercalate_cons_cons, occurrences_around hp h, ih]
      simp only [List.map_cons, List.sum_cons]

end Around

end Literal

namespace Rule

/-- The units a rule leaves: each leftmost occurrence of its pattern replaced. -/
def rewrite (r : Rule) (units : List UInt16) : List UInt16 :=
  Literal.replaceAll (Text.units r.pattern) (Text.units r.replacement) units

/-- How many occurrences of its pattern a rule replaces. -/
def count (r : Rule) (units : List UInt16) : Nat :=
  Literal.occurrences (Text.units r.pattern) units

/-- What a rule adds to the hits: its pattern with its count, when it occurred. -/
def hit (r : Rule) (units : List UInt16) : List (String × Nat) :=
  if r.count units = 0 then [] else [(r.pattern, r.count units)]

section Around

variable {r : Rule} {c : UInt16} (hp : r.pattern ≠ "") (hc : c ∉ Text.units r.pattern)
include hp hc

theorem clear_unit : Literal.Clear (Text.units r.pattern) [c] :=
  Literal.clear_of_disjoint (Text.units_ne_nil hp) (List.cons_ne_nil c [])
    fun _ hx hxc => hc (List.mem_singleton.mp hxc ▸ hx)

/-- Around a unit its pattern does not hold, a rule rewrites each side alone. -/
theorem rewrite_around (u v : List UInt16) :
    r.rewrite (u ++ c :: v) = r.rewrite u ++ c :: r.rewrite v := by
  have h := Literal.replaceAll_around (r := Text.units r.replacement) (Text.units_ne_nil hp)
    (clear_unit hp hc) u v
  unfold rewrite
  simpa only [List.append_assoc, List.singleton_append] using h

/-- Around a unit its pattern does not hold, a rule counts each side alone. -/
theorem count_around (u v : List UInt16) : r.count (u ++ c :: v) = r.count u + r.count v := by
  have h := Literal.occurrences_around (Text.units_ne_nil hp) (clear_unit hp hc) u v
  unfold count
  simpa only [List.append_assoc, List.singleton_append] using h

end Around

end Rule

namespace Applied

/-- How many occurrences of a pattern were replaced: its count among the hits, or zero when it
is not among them. -/
def hitCount (a : Applied) (pattern : String) : Nat :=
  (a.hits.lookup pattern).getD 0

end Applied

namespace Table

/-- A run of rules is the first rule's rewrite, listing its hit when it occurred, followed by
the run of the rest over what it left. -/
theorem runRules_cons (r : Rule) (rs : List Rule) (units : List UInt16) :
    runRules (r :: rs) units =
      ((runRules rs (r.rewrite units)).1, r.hit units ++ (runRules rs (r.rewrite units)).2) := by
  by_cases hn : (r.cut units).length - 1 = 0
  · -- a rule that does not occur leaves the units as they are
    have hcount : r.count units = 0 := hn
    have hsame : r.rewrite units = units := by
      simp only [Rule.rewrite, Literal.replaceAll, Literal.split_eq_singleton hn,
        List.intercalate_singleton]
    simp only [runRules, hn, if_true, Rule.hit, hcount, hsame, List.nil_append]
  · have hcount : r.count units ≠ 0 := hn
    simp only [runRules, hn, if_false, Rule.hit, hcount, List.singleton_append]
    rfl

/-- Rules that run after each other run as one list. -/
theorem runRules_append (xs ys : List Rule) (units : List UInt16) :
    runRules (xs ++ ys) units =
      ((runRules ys (runRules xs units).1).1,
        (runRules xs units).2 ++ (runRules ys (runRules xs units).1).2) := by
  induction xs generalizing units with
  | nil => rfl
  | cons r rs ih => simp only [List.cons_append, runRules_cons, ih, List.append_assoc]

/-- A pattern no rule has is not among the hits of a run. -/
theorem lookup_runRules_of_not_mem {pattern : String} (rs : List Rule)
    (h : pattern ∉ rs.map Rule.pattern) (units : List UInt16) :
    (runRules rs units).2.lookup pattern = none := by
  induction rs generalizing units with
  | nil => rfl
  | cons r rs ih =>
    have hne : pattern ≠ r.pattern := fun e => h (e ▸ List.mem_map_of_mem List.mem_cons_self)
    have hb : (pattern == r.pattern) = false := beq_eq_false_iff_ne.mpr hne
    have hrest := ih (fun hm => h (List.mem_cons_of_mem _ hm)) (r.rewrite units)
    rw [runRules_cons, List.lookup_append]
    by_cases hz : r.count units = 0 <;> simp [Rule.hit, hz, hb, hrest, List.lookup_cons]

/-- The count of a pattern among a rule's hit and the hits after it, when those do not list the
rule's pattern. -/
theorem lookup_hit_append (r : Rule) (units : List UInt16) {hits : List (String × Nat)}
    (h : hits.lookup r.pattern = none) (pattern : String) :
    ((r.hit units ++ hits).lookup pattern).getD 0 =
      (if pattern = r.pattern then r.count units else 0) + (hits.lookup pattern).getD 0 := by
  by_cases hp : pattern = r.pattern
  · subst hp
    by_cases hz : r.count units = 0 <;> simp [Rule.hit, hz, h]
  · have hb : (pattern == r.pattern) = false := beq_eq_false_iff_ne.mpr hp
    by_cases hz : r.count units = 0 <;> simp [Rule.hit, hz, hp, hb, List.lookup_cons]

/-- The total of hits one after the other. -/
theorem total_append (hits hits' : List (String × Nat)) :
    ((hits ++ hits').map Prod.snd).foldr (· + ·) 0 =
      (hits.map Prod.snd).foldr (· + ·) 0 + (hits'.map Prod.snd).foldr (· + ·) 0 := by
  induction hits with
  | nil => simp
  | cons h hits ih => simp only [List.cons_append, List.map_cons, List.foldr_cons, ih, Nat.add_assoc]

/-- The total of a rule's hit and the hits after it. -/
theorem total_hit_append (r : Rule) (units : List UInt16) (hits : List (String × Nat)) :
    ((r.hit units ++ hits).map Prod.snd).foldr (· + ·) 0 =
      r.count units + (hits.map Prod.snd).foldr (· + ·) 0 := by
  by_cases hz : r.count units = 0 <;> simp [Rule.hit, hz]

/-! ## A unit no pattern holds -/

section AroundUnit

variable {c : UInt16}

/-- Around a unit no pattern holds, a run of rules translates each side alone. -/
theorem runRules_around_unit (rs : List Rule)
    (hrs : ∀ r ∈ rs, r.pattern ≠ "" ∧ c ∉ Text.units r.pattern) (u v : List UInt16) :
    (runRules rs (u ++ c :: v)).1 = (runRules rs u).1 ++ c :: (runRules rs v).1 := by
  induction rs generalizing u v with
  | nil => rfl
  | cons r rs ih =>
    obtain ⟨hp, hc⟩ := hrs r List.mem_cons_self
    simp only [runRules_cons, Rule.rewrite_around hp hc]
    exact ih (fun x hx => hrs x (List.mem_cons_of_mem _ hx)) _ _

/-- Around a unit no pattern holds, a run of rules replaces on both sides together what it
replaces on each. -/
theorem total_runRules_around_unit (rs : List Rule)
    (hrs : ∀ r ∈ rs, r.pattern ≠ "" ∧ c ∉ Text.units r.pattern) (u v : List UInt16) :
    ((runRules rs (u ++ c :: v)).2.map Prod.snd).foldr (· + ·) 0 =
      ((runRules rs u).2.map Prod.snd).foldr (· + ·) 0 +
        ((runRules rs v).2.map Prod.snd).foldr (· + ·) 0 := by
  induction rs generalizing u v with
  | nil => rfl
  | cons r rs ih =>
    obtain ⟨hp, hc⟩ := hrs r List.mem_cons_self
    simp only [runRules_cons, total_hit_append, Rule.rewrite_around hp hc, Rule.count_around hp hc,
      ih (fun x hx => hrs x (List.mem_cons_of_mem _ hx))]
    omega

/-- Around a unit no pattern holds, a run of rules of distinct patterns counts each pattern on
both sides together as on each. -/
theorem lookup_runRules_around_unit (rs : List Rule)
    (hrs : ∀ r ∈ rs, r.pattern ≠ "" ∧ c ∉ Text.units r.pattern) (hnodup : (rs.map Rule.pattern).Nodup)
    (u v : List UInt16) (pattern : String) :
    ((runRules rs (u ++ c :: v)).2.lookup pattern).getD 0 =
      ((runRules rs u).2.lookup pattern).getD 0 + ((runRules rs v).2.lookup pattern).getD 0 := by
  induction rs generalizing u v with
  | nil => rfl
  | cons r rs ih =>
    obtain ⟨hp, hc⟩ := hrs r List.mem_cons_self
    have hfresh : r.pattern ∉ rs.map Rule.pattern := (List.nodup_cons.mp hnodup).1
    simp only [runRules_cons]
    rw [lookup_hit_append _ _ (lookup_runRules_of_not_mem rs hfresh _),
      lookup_hit_append _ _ (lookup_runRules_of_not_mem rs hfresh _),
      lookup_hit_append _ _ (lookup_runRules_of_not_mem rs hfresh _),
      Rule.rewrite_around hp hc, Rule.count_around hp hc,
      ih (fun x hx => hrs x (List.mem_cons_of_mem _ hx)) (List.nodup_cons.mp hnodup).2]
    split <;> omega

end AroundUnit

theorem units_append_unit (u v : String) (c : UInt16) :
    Text.units (u ++ Text.ofUnits [c] ++ v) = Text.units u ++ c :: Text.units v := by
  have hc := Text.units_ofUnits [c]
  simp only [Text.units, String.toList_append, List.flatMap_append] at hc ⊢
  rw [hc, List.append_assoc, List.singleton_append]

theorem replacements_applyWithStats (T : Table) (text : String) :
    (T.applyWithStats text).replacements =
      ((runRules T.rules (Text.units text)).2.map Prod.snd).foldr (· + ·) 0 := rfl

theorem hitCount_applyWithStats (T : Table) (text pattern : String) :
    (T.applyWithStats text).hitCount pattern =
      ((runRules T.rules (Text.units text)).2.lookup pattern).getD 0 := rfl

/-- A unit that no pattern of a table holds cuts a text into two that the table translates
apart: the result is the left side translated, the unit, and the right side translated, and the
replacements and each pattern's hit count add up over the two sides. -/
theorem applyWithStats_around_unit (T : Table) {c : UInt16}
    (hc : ∀ r ∈ T.rules, c ∉ Text.units r.pattern) (u v : String) :
    Text.units (T.applyWithStats (u ++ Text.ofUnits [c] ++ v)).text =
        Text.units (T.apply u) ++ c :: Text.units (T.apply v) ∧
      (T.applyWithStats (u ++ Text.ofUnits [c] ++ v)).replacements =
        (T.applyWithStats u).replacements + (T.applyWithStats v).replacements ∧
      ∀ pattern, (T.applyWithStats (u ++ Text.ofUnits [c] ++ v)).hitCount pattern =
        (T.applyWithStats u).hitCount pattern + (T.applyWithStats v).hitCount pattern := by
  have hrs : ∀ r ∈ T.rules, r.pattern ≠ "" ∧ c ∉ Text.units r.pattern :=
    fun r hr => ⟨T.pattern_ne r hr, hc r hr⟩
  have hunits := units_append_unit u v c
  refine ⟨?_, ?_, fun pattern => ?_⟩
  · show Text.units (T.apply _) = _
    rw [units_apply, units_apply, units_apply, hunits, runRules_around_unit T.rules hrs]
  · rw [replacements_applyWithStats, replacements_applyWithStats, replacements_applyWithStats,
      hunits, total_runRules_around_unit T.rules hrs]
  · rw [hitCount_applyWithStats, hitCount_applyWithStats, hitCount_applyWithStats, hunits,
      lookup_runRules_around_unit T.rules hrs T.patterns_nodup]

/-- No bundled pattern holds a line feed, so the bundled table translates two lines apart. -/
theorem bundled_translates_line_by_line :
    let lineFeed : UInt16 := 10
    (∀ r ∈ bundled.rules, lineFeed ∉ Text.units r.pattern) ∧
      Text.units (bundled.applyWithStats ("保存" ++ Text.ofUnits [lineFeed] ++ "削除")).text =
          Text.units (bundled.apply "保存") ++ lineFeed :: Text.units (bundled.apply "削除") ∧
        (bundled.applyWithStats ("保存" ++ Text.ofUnits [lineFeed] ++ "削除")).replacements =
          (bundled.applyWithStats "保存").replacements + (bundled.applyWithStats "削除").replacements ∧
        ∀ pattern,
          (bundled.applyWithStats ("保存" ++ Text.ofUnits [lineFeed] ++ "削除")).hitCount pattern =
            (bundled.applyWithStats "保存").hitCount pattern +
              (bundled.applyWithStats "削除").hitCount pattern := by
  intro lineFeed
  have hline : ∀ r ∈ bundled.rules, lineFeed ∉ Text.units r.pattern := by
    -- checked as a Boolean fold over the rules, which the kernel runs as a loop
    have hcheck : (bundledRules.all fun r => !(Text.units r.pattern).contains 10) = true := by
      decide +kernel
    rw [bundled_rules]
    simpa using hcheck
  exact ⟨hline, applyWithStats_around_unit bundled hline "保存" "削除"⟩

end Table

end Reword
