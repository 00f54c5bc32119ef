import Mathlib
import Reword.Proofs.Locality
/-!
# Rules that do not meet commute

A table runs its rules in order, and order matters when one rule's text can take part in
another's occurrence. Two rules do not meet (`Rule.Independent`) when neither pattern can
overlap the other rule's pattern or replacement, wherever these stand. Then running them in
either order gives the same text, and each replaces as many occurrences as it would have
replaced first.

The argument goes through a description of the pieces a pattern cuts a text into that does not
follow the scan (`Literal.Cuts`): a text is one piece when the pattern does not occur in it, and
otherwise a first piece, the pattern and the rest, where no occurrence starts inside the first
piece. The scan's pieces are the only ones so described (`Literal.split_eq_of_cuts`). A rewrite
that puts no new occurrence of the pattern anywhere and passes over the pattern itself keeps the
description (`Literal.Cuts.map`), so it rewrites the pieces one by one (`Literal.split_map`).
Replacing `q` is such a rewrite for `p` when `q` keeps clear of `p` and `p` keeps clear of the
replacement of `q`; and replacing `q` passes over a join by the replacement of `p` that `q`
keeps clear of. Both orders then give the pieces of `p` with `q` replaced in each, joined by the
replacement of `p` (`Literal.replaceAll_comm`).

**The law** (`Table.applyWithStats_swap_independent`): swapping two adjacent rules that do not
meet changes neither the text a table gives, nor its count of replacements, nor the hit count of
any pattern; only the order of the two hits in the list changes.
-/

namespace Reword

namespace Literal

variable {α : Type} [DecidableEq α]

/-- The pieces of a text at the leftmost occurrences of a pattern, said without the scan: a
text the pattern does not occur in is one piece; otherwise the text is a first piece, the
pattern and the rest, and no occurrence of the pattern starts inside the first piece. -/
inductive Cuts (p : List α) : List α → List (List α) → Prop
  | last {w : List α} : ¬ p <:+: w → Cuts p w [w]
  | cut {w y : List α} {pieces : List (List α)} :
      ¬ p <:+: w ++ p.dropLast → Cuts p y pieces → Cuts p (w ++ p ++ y) (w :: pieces)

section Cuts

variable {p : List α} (hp : p ≠ [])
include hp

/-- A pattern that first occurs right after a text is cut there. -/
theorem split_append_pattern {w : List α} (h : ¬ p <:+: w ++ p.dropLast) (y : List α) :
    split p (w ++ p ++ y) = w :: split p y := by
  induction w with
  | nil =>
    obtain ⟨c, ps, rfl⟩ := List.exists_cons_of_ne_nil hp
    have hocc : c :: ps ≠ [] ∧ (c :: ps).isPrefixOf (c :: (ps ++ y)) = true :=
      ⟨hp, List.isPrefixOf_iff_prefix.mpr (List.prefix_append (c :: ps) y)⟩
    rw [List.nil_append, List.cons_append, split_of_occurs hocc, ← List.cons_append,
      List.drop_left]
  | cons a w ih =>
    -- no occurrence starts at `a`: one there would lie within the first piece and the pattern
    have hnot : ¬(p ≠ [] ∧ p.isPrefixOf (a :: (w ++ p ++ y)) = true) := by
      rintro ⟨-, hpre⟩
      refine h (List.IsPrefix.isInfix (List.prefix_of_prefix_length_le
        (List.isPrefixOf_iff_prefix.mp hpre) ?_ ?_))
      · rw [List.cons_append, List.append_assoc]
        exact (List.prefix_cons_inj a).mpr ((List.prefix_append_right_inj w).mpr
          ((List.dropLast_prefix p).trans (List.prefix_append p y)))
      · simp only [List.cons_append, List.length_cons, List.length_append, List.length_dropLast]
        have := List.length_pos_iff.mpr hp
        omega
    have hrest : ¬ p <:+: w ++ p.dropLast := fun hin => h (hin.trans (List.suffix_cons a _).isInfix)
    rw [List.cons_append, List.cons_append, split_of_not_occurs hnot, ih hrest]
    rfl

/-- A text the scan passes one element of, ahead of pieces it described. -/
theorem Cuts.consHead {c : α} {rest : List α} {pieces : List (List α)}
    (hnot : ¬(p ≠ [] ∧ p.isPrefixOf (c :: rest) = true)) (h : Cuts p rest pieces) :
    Cuts p (c :: rest) (Literal.consHead c pieces) := by
  cases h with
  | last hw =>
    refine .last fun hin => ?_
    rcases List.infix_cons_iff.mp hin with hpre | hin
    · exact hnot ⟨hp, List.isPrefixOf_iff_prefix.mpr hpre⟩
    · exact hw hin
  | @cut w y pieces hw hy =>
    have htext : c :: (w ++ p ++ y) = (c :: w) ++ p ++ y := by simp
    show Cuts p (c :: (w ++ p ++ y)) ((c :: w) :: pieces)
    rw [htext]
    refine .cut (fun hin => ?_) hy
    rcases List.infix_cons_iff.mp hin with hpre | hin
    · refine hnot ⟨hp, List.isPrefixOf_iff_prefix.mpr (hpre.trans ?_)⟩
      show c :: (w ++ p.dropLast) <+: c :: (w ++ p ++ y)
      rw [List.append_assoc]
      exact (List.prefix_cons_inj c).mpr ((List.prefix_append_right_inj w).mpr
        ((List.dropLast_prefix p).trans (List.prefix_append p y)))
    · exact hw hin

/-- The scan's pieces are described by `Cuts`. -/
theorem cuts_split (t : List α) : Cuts p t (split p t) := by
  induction t using split_induction p with
  | nil => exact .last fun hin => hp (List.eq_nil_of_infix_nil hin)
  | occurs c rest h ih =>
    obtain ⟨after, hafter⟩ := List.isPrefixOf_iff_prefix.mp h.2
    have hdrop : (c :: rest).drop p.length = after := by rw [← hafter, List.drop_left]
    have hfirst : ¬ p <:+: [] ++ p.dropLast := fun hin => by
      have := hin.length_le
      simp only [List.nil_append, List.length_dropLast] at this
      have := List.length_pos_iff.mpr hp
      omega
    rw [split_of_occurs h, hdrop, ← hafter]
    rw [hdrop] at ih
    simpa using Cuts.cut hfirst ih
  | passes c rest h ih =>
    rw [split_of_not_occurs h]
    exact ih.consHead hp h

/-- Only the scan's pieces are described by `Cuts`. -/
theorem split_eq_of_cuts {t : List α} {pieces : List (List α)} (h : Cuts p t pieces) :
    split p t = pieces := by
  induction h with
  | last hw => exact split_eq_singleton ((occurrences_eq_zero_iff hp).mpr hw)
  | @cut w y pieces hw _ ih => rw [split_append_pattern hp hw, ih]

omit [DecidableEq α] hp in
/-- A rewrite that makes no new occurrence of the pattern, passes over the pattern, and passes
over what of it could start inside a piece, keeps the description of the pieces. -/
theorem Cuts.map {F : List α → List α} (hnew : ∀ z, ¬ p <:+: z → ¬ p <:+: F z)
    (hcut : ∀ w y, F (w ++ p ++ y) = F w ++ p ++ F y)
    (hend : ∀ w, F (w ++ p.dropLast) = F w ++ p.dropLast)
    {t : List α} {pieces : List (List α)} (h : Cuts p t pieces) :
    Cuts p (F t) (pieces.map F) := by
  induction h with
  | last hw => exact .last (hnew _ hw)
  | @cut w y pieces hw _ ih =>
    rw [hcut, List.map_cons]
    exact .cut (by rw [← hend]; exact hnew _ hw) ih

/-- Such a rewrite cuts at the same places: the pieces of what it gives are the pieces of the
text, each rewritten. -/
theorem split_map {F : List α → List α} (hnew : ∀ z, ¬ p <:+: z → ¬ p <:+: F z)
    (hcut : ∀ w y, F (w ++ p ++ y) = F w ++ p ++ F y)
    (hend : ∀ w, F (w ++ p.dropLast) = F w ++ p.dropLast) (t : List α) :
    split p (F t) = (split p t).map F :=
  split_eq_of_cuts hp ((cuts_split hp t).map hnew hcut hend)

end Cuts

/-! ## Replacing one pattern, seen by another -/

section Replace

variable {p q r s : List α}

omit [DecidableEq α] in
/-- A pattern that keeps clear of a text does not reach across the seam before any start of
it. -/
theorem Clear.noStraddle_prefix (h : Clear q p) {z : List α} (hz : z <+: p) (w : List α) :
    NoStraddle q w z := by
  obtain ⟨z', hz'⟩ := hz
  intro a b hab
  have := h w [] a (b ++ z') (by
    rw [← List.append_assoc, hab, List.append_assoc, hz', List.append_nil])
  omega

/-- Two patterns each clear of the other's replacement, the second clear of the first: replacing
them in either order gives the same text, and each counts what it would count first. -/
theorem replaceAll_comm (hp : p ≠ []) (hq : q ≠ []) (hqp : Clear q p) (hps : Clear p s)
    (hqr : Clear q r) (t : List α) :
    replaceAll q s (replaceAll p r t) = replaceAll p r (replaceAll q s t) ∧
      occurrences q (replaceAll p r t) = occurrences q t ∧
      occurrences p (replaceAll q s t) = occurrences p t := by
  -- replacing `q` keeps the pieces of `p`
  have hend : ∀ w, replaceAll q s (w ++ p.dropLast) = replaceAll q s w ++ p.dropLast := by
    intro w
    rw [replaceAll_append (hqp.noStraddle_prefix (List.dropLast_prefix p) w),
      replaceAll_of_not_infix hq fun hin =>
        hqp.not_infix hq (hin.trans (List.dropLast_prefix p).isInfix)]
  have hsplit : split p (replaceAll q s t) = (split p t).map (replaceAll q s) :=
    split_map hp (fun _ hz => not_infix_replaceAll hp hps hz) (replaceAll_around hq hqp) hend t
  refine ⟨?_, ?_, ?_⟩
  · calc replaceAll q s (replaceAll p r t)
        = replaceAll q s (r.intercalate (split p t)) := rfl
      _ = r.intercalate ((split p t).map (replaceAll q s)) := replaceAll_intercalate hq hqr _
      _ = replaceAll p r (replaceAll q s t) := by rw [replaceAll, hsplit]
  · calc occurrences q (replaceAll p r t)
        = occurrences q (r.intercalate (split p t)) := rfl
      _ = ((split p t).map (occurrences q)).sum := occurrences_intercalate hq hqr _
      _ = occurrences q (p.intercalate (split p t)) := (occurrences_intercalate hq hqp _).symm
      _ = occurrences q t := by rw [intercalate_split]
  · simp only [occurrences, hsplit, List.length_map]

end Replace

end Literal

namespace Rule

/-- Two rules do not meet: wherever a text stands, no occurrence of the first pattern overlaps
it when it is the second pattern or the second replacement, and no occurrence of the second
pattern overlaps it when it is the first pattern or the first replacement. -/
def Independent (a b : Rule) : Prop :=
  Literal.Clear (Text.units a.pattern) (Text.units b.pattern) ∧
    Literal.Clear (Text.units a.pattern) (Text.units b.replacement) ∧
    Literal.Clear (Text.units b.pattern) (Text.units a.pattern) ∧
    Literal.Clear (Text.units b.pattern) (Text.units a.replacement)

/-- Two rules that do not meet rewrite in either order alike, and each counts what it counts
first. -/
theorem rewrite_comm {a b : Rule} (ha : a.pattern ≠ "") (hb : b.pattern ≠ "")
    (h : Independent a b) (units : List UInt16) :
    b.rewrite (a.rewrite units) = a.rewrite (b.rewrite units) ∧
      b.count (a.rewrite units) = b.count units ∧ a.count (b.rewrite units) = a.count units :=
  Literal.replaceAll_comm (Text.units_ne_nil ha) (Text.units_ne_nil hb) h.2.2.1 h.2.1 h.2.2.2
    units

end Rule

namespace Table

/-- Two adjacent rules that do not meet run in either order to the same units; their hits come
in the order they run, each with the count it has first. -/
theorem runRules_swap {a b : Rule} (ha : a.pattern ≠ "") (hb : b.pattern ≠ "")
    (h : Rule.Independent a b) (post : List Rule) (units : List UInt16) :
    (runRules (b :: a :: post) units).1 = (runRules (a :: b :: post) units).1 ∧
      (runRules (a :: b :: post) units).2 =
        a.hit units ++ (b.hit units ++ (runRules post (b.rewrite (a.rewrite units))).2) ∧
      (runRules (b :: a :: post) units).2 =
        b.hit units ++ (a.hit units ++ (runRules post (b.rewrite (a.rewrite units))).2) := by
  obtain ⟨hcomm, hcb, hca⟩ := Rule.rewrite_comm ha hb h units
  have hhb : b.hit (a.rewrite units) = b.hit units := by simp only [Rule.hit, hcb]
  have hha : a.hit (b.rewrite units) = a.hit units := by simp only [Rule.hit, hca]
  simp only [runRules_cons, hhb, hha, hcomm, and_self]

/-- Two hits of different patterns read alike in either order. -/
theorem lookup_hits_swap {a b : Rule} (hne : a.pattern ≠ b.pattern) (u w : List UInt16)
    (hits : List (String × Nat)) (pattern : String) :
    (b.hit w ++ (a.hit u ++ hits)).lookup pattern = (a.hit u ++ (b.hit w ++ hits)).lookup pattern := by
  by_cases hpa : pattern = a.pattern
  · subst hpa
    have hb : (a.pattern == b.pattern) = false := beq_eq_false_iff_ne.mpr hne
    by_cases hza : a.count u = 0 <;> by_cases hzb : b.count w = 0 <;>
      simp [Rule.hit, hza, hzb, hb, List.lookup_cons]
  · have ha : (pattern == a.pattern) = false := beq_eq_false_iff_ne.mpr hpa
    by_cases hza : a.count u = 0 <;> by_cases hzb : b.count w = 0 <;>
      simp [Rule.hit, hza, hzb, ha, List.lookup_cons]

/-- Hits read alike after the same hits before them. -/
theorem lookup_append_congr (before : List (String × Nat)) {hits hits' : List (String × Nat)}
    {pattern : String} (h : hits.lookup pattern = hits'.lookup pattern) :
    (before ++ hits).lookup pattern = (before ++ hits').lookup pattern := by
  rw [List.lookup_append, List.lookup_append, h]

theorem text_applyWithStats (T : Table) (text : String) :
    (T.applyWithStats text).text =
      if (runRules T.rules (Text.units text)).2.isEmpty then text
      else Text.ofUnits (runRules T.rules (Text.units text)).1 := rfl

/-- Swapping two adjacent rules of a table that do not meet changes neither the text it gives,
nor its replacements, nor the hit count of any pattern. -/
theorem applyWithStats_swap_independent (T T' : Table) {pre post : List Rule} {a b : Rule}
    (hT : T.rules = pre ++ a :: b :: post) (hT' : T'.rules = pre ++ b :: a :: post)
    (hab : Rule.Independent a b) (text : String) :
    (T'.applyWithStats text).text = (T.applyWithStats text).text ∧
      (T'.applyWithStats text).replacements = (T.applyWithStats text).replacements ∧
      ∀ pattern, (T'.applyWithStats text).hitCount pattern =
        (T.applyWithStats text).hitCount pattern := by
  have hmem : a ∈ T.rules ∧ b ∈ T.rules := by simp [hT]
  have ha := T.pattern_ne a hmem.1
  have hb := T.pattern_ne b hmem.2
  have hsub : ((a :: b :: post).map Rule.pattern).Nodup := by
    have hnodup := T.patterns_nodup
    rw [hT, List.map_append] at hnodup
    exact (List.nodup_append.mp hnodup).2.1
  have hne : a.pattern ≠ b.pattern := fun e => (List.nodup_cons.mp hsub).1 (by simp [e])
  -- the rules before the two leave the same units to both tables
  obtain ⟨hunits, hhits, hhits'⟩ := runRules_swap ha hb hab post (runRules pre (Text.units text)).1
  refine ⟨?_, ?_, fun pattern => ?_⟩
  · have hempty : ((runRules pre (Text.units text)).2 ++
          (runRules (b :: a :: post) (runRules pre (Text.units text)).1).2).isEmpty =
        ((runRules pre (Text.units text)).2 ++
          (runRules (a :: b :: post) (runRules pre (Text.units text)).1).2).isEmpty := by
      rw [hhits, hhits']
      apply Bool.eq_iff_iff.mpr
      simp only [List.isEmpty_iff, List.append_eq_nil_iff]
      tauto
    rw [text_applyWithStats, text_applyWithStats, hT, hT', runRules_append, runRules_append]
    simp only [hempty, hunits]
  · rw [replacements_applyWithStats, replacements_applyWithStats, hT, hT', runRules_append,
      runRules_append, total_append, total_append, hhits, hhits', total_hit_append,
      total_hit_append, total_hit_append, total_hit_append]
    omega
  · rw [hitCount_applyWithStats, hitCount_applyWithStats, hT, hT', runRules_append,
      runRules_append, hhits, hhits', lookup_append_congr _ (lookup_hits_swap hne _ _ _ _)]

/-- `保存 → Save` and `削除 → Delete` share no unit, so they run in either order alike. -/
theorem disjoint_rules_swap :
    let save : Rule := ⟨"保存", "Save"⟩
    let delete : Rule := ⟨"削除", "Delete"⟩
    let T : Table := ⟨[save, delete], by decide, by decide⟩
    let T' : Table := ⟨[delete, save], by decide, by decide⟩
    T.rules = [] ++ save :: delete :: [] ∧ T'.rules = [] ++ delete :: save :: [] ∧
      Rule.Independent save delete ∧
      (T'.applyWithStats "保存 削除 保存").text = (T.applyWithStats "保存 削除 保存").text ∧
      (T'.applyWithStats "保存 削除 保存").replacements =
        (T.applyWithStats "保存 削除 保存").replacements ∧
      ∀ pattern, (T'.applyWithStats "保存 削除 保存").hitCount pattern =
        (T.applyWithStats "保存 削除 保存").hitCount pattern := by
  intro save delete T T'
  -- disjointness is checked as a Boolean fold over the units, which the kernel runs as a loop
  have hclear : ∀ x y : String, x ≠ "" → y ≠ "" →
      ((Text.units x).all fun u => !(Text.units y).contains u) = true →
        Literal.Clear (Text.units x) (Text.units y) :=
    fun x y hx hy hdis => Literal.clear_of_disjoint (Text.units_ne_nil hx) (Text.units_ne_nil hy)
      (by simpa using hdis)
  have hind : Rule.Independent save delete :=
    ⟨hclear "保存" "削除" (by decide +kernel) (by decide +kernel) (by decide +kernel),
      hclear "保存" "Delete" (by decide +kernel) (by decide +kernel) (by decide +kernel),
      hclear "削除" "保存" (by decide +kernel) (by decide +kernel) (by decide +kernel),
      hclear "削除" "Save" (by decide +kernel) (by decide +kernel) (by decide +kernel)⟩
  exact ⟨rfl, rfl, hind,
    @applyWithStats_swap_independent T T' [] [] save delete rfl rfl hind "保存 削除 保存"⟩

end Table

end Reword
