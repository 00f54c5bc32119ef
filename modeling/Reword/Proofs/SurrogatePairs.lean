import Mathlib
import Reword.Proofs.Scan
import Reword.Proofs.Utf8Codec
/-!
# Rewriting keeps surrogates paired

A table matches texts as UTF-16 code units, and a character above U+FFFF is two of them, so a
rule could cut between the halves of a surrogate pair. It never does when its pattern holds no
lone surrogate: such a pattern starts with no low surrogate and ends with no high one, so an
occurrence of it in a text that holds none begins and ends between characters
(`pairedUnits_of_occurrence`).

Whether code units pair their surrogates is a local matter (`pairedUnits_iff`): the first unit is
no low surrogate, the last no high one, and each unit is a high surrogate exactly when the unit
after it is a low one. So texts that pair their surrogates stay so when put side by side
(`pairedUnits_append`), the scan that replaces a pattern keeps them so (`pairedUnits_scanReplace`),
and so does every rule of a run (`pairedUnits_runRules`).

**The law** (`Table.applyWithStats_keeps_surrogates_paired`): a table whose patterns and
replacements hold no lone surrogate takes a text that holds none to texts that hold none, after
each of its rules and at the end; what is then written out as UTF-8 reads back as the same code
units, with no surrogate turned into U+FFFD.
-/

namespace Reword

namespace Text

/-- A surrogate is a high or a low one. -/
theorem isSurrogate_eq_or (u : UInt16) : isSurrogate u = (isHigh u || isLow u) := by
  rw [Bool.eq_iff_iff]
  simp only [isSurrogate, isHigh, isLow, Bool.and_eq_true, decide_eq_true_eq, Bool.or_eq_true]
  omega

theorem isLow_eq_false_of_isHigh {u : UInt16} (h : isHigh u = true) : isLow u = false := by
  simp only [isHigh, isLow, Bool.and_eq_true, decide_eq_true_eq, Bool.and_eq_false_iff,
    decide_eq_false_iff_not] at h ⊢
  omega

/-- Code units pair their surrogates exactly when the first is no low surrogate, the last no
high one, and each is a high surrogate exactly when the one after it is a low one. -/
theorem pairedUnits_iff (us : List UInt16) :
    pairedUnits us = true ↔
      (∀ u ∈ us.head?, isLow u = false) ∧ (∀ u ∈ us.getLast?, isHigh u = false) ∧
        us.IsChain (fun a b => isHigh a = isLow b) := by
  fun_induction pairedUnits us with
  | case1 => simp
  | case2 u =>
    cases hh : isHigh u <;> cases hl : isLow u <;> simp [isSurrogate_eq_or, hh, hl]
  | case3 u w rest hp ih =>
    -- a high surrogate and a low one: the pair is a character, and the rest starts afresh
    obtain ⟨hu, hw⟩ := Bool.and_eq_true_iff.mp hp
    have hwHigh : isHigh w = false := by
      cases h : isHigh w
      · rfl
      · exact absurd hw (by simp [isLow_eq_false_of_isHigh h])
    rw [ih]
    cases rest with
    | nil => simp [isLow_eq_false_of_isHigh hu, hu, hw, hwHigh]
    | cons x more =>
      simp only [List.head?_cons, List.getLast?_cons_cons, List.isChain_cons_cons, Option.mem_def,
        Option.some.injEq, forall_eq', isLow_eq_false_of_isHigh hu, hu, hw, hwHigh, true_and,
        @eq_comm _ false]
      exact and_left_comm
  | case4 u w rest hp ih =>
    -- no pair: the first unit must be no surrogate, and the rest is read from the next unit
    have hnot : ¬(isHigh u = true ∧ isLow w = true) := by simpa using hp
    rw [Bool.and_eq_true, ih, isSurrogate_eq_or]
    simp only [List.head?_cons, List.getLast?_cons_cons, List.isChain_cons_cons, Option.mem_def,
      Option.some.injEq, forall_eq']
    cases hh : isHigh u <;> cases hl : isLow u <;> cases hw : isLow w <;> simp_all

/-- Units that pair their surrogates, put side by side, pair them. -/
theorem pairedUnits_append {a b : List UInt16} (ha : pairedUnits a = true)
    (hb : pairedUnits b = true) : pairedUnits (a ++ b) = true := by
  rw [pairedUnits_iff] at ha hb ⊢
  obtain ⟨haHead, haLast, haChain⟩ := ha
  obtain ⟨hbHead, hbLast, hbChain⟩ := hb
  refine ⟨?_, ?_, List.IsChain.append haChain hbChain ?_⟩
  · intro u hu
    rw [List.head?_append, Option.mem_def, Option.or_eq_some_iff] at hu
    rcases hu with hu | ⟨-, hu⟩
    · exact haHead u hu
    · exact hbHead u hu
  · intro u hu
    rw [List.getLast?_append, Option.mem_def, Option.or_eq_some_iff] at hu
    rcases hu with hu | ⟨-, hu⟩
    · exact hbLast u hu
    · exact haLast u hu
  · -- the seam joins a unit that is no high surrogate to one that is no low one
    intro x hx y hy
    rw [haLast x hx, hbHead y hy]

/-- An occurrence of units that pair their surrogates, inside units that pair theirs, begins and
ends between characters: what stands before and after it pairs its surrogates too. -/
theorem pairedUnits_of_occurrence {a p b : List UInt16} (h : pairedUnits (a ++ p ++ b) = true)
    (hp : pairedUnits p = true) (hne : p ≠ []) :
    pairedUnits a = true ∧ pairedUnits b = true := by
  rw [pairedUnits_iff] at h hp ⊢
  rw [pairedUnits_iff]
  obtain ⟨hHead, hLast, hChain⟩ := h
  obtain ⟨hpHead, hpLast, -⟩ := hp
  obtain ⟨hChainAP, hChainB, hSeamB⟩ := List.isChain_append.mp hChain
  obtain ⟨hChainA, -, hSeamA⟩ := List.isChain_append.mp hChainAP
  have hfirst := List.head?_eq_some_head hne
  have hlast := List.getLast?_eq_some_getLast hne
  refine ⟨⟨?_, ?_, hChainA⟩, ⟨?_, ?_, hChainB⟩⟩
  · intro u hu
    exact hHead u (by simp [Option.mem_def.mp hu])
  · -- the occurrence starts with no low surrogate, so the unit before it is no high one
    intro u hu
    rw [hSeamA u hu _ hfirst, hpHead _ hfirst]
  · -- the occurrence ends with no high surrogate, so the unit after it is no low one
    intro u hu
    have hseam := hSeamB _ (by rw [List.getLast?_append, hlast]; rfl) u hu
    rw [← hseam, hpLast _ hlast]
  · intro u hu
    exact hLast u (by simp [Option.mem_def.mp hu])

end Text

namespace Literal

open Text

variable {p r : List UInt16}

/-- The scan that replaces a pattern keeps the surrogates of a text paired, whatever was copied
before it: each occurrence it replaces begins and ends between characters, and the replacement
put there pairs its own. -/
theorem pairedUnits_scanReplace (hp : pairedUnits p = true) (hr : pairedUnits r = true)
    (text : List UInt16) :
    ∀ before, pairedUnits (before ++ text) = true →
      pairedUnits (before ++ (scanReplace p r text).1) = true := by
  induction text using split_induction p with
  | nil => intro before h; simpa [scanReplace] using h
  | occurs c rest hocc ih =>
    intro before h
    have hsplit : c :: rest = p ++ (c :: rest).drop p.length :=
      List.prefix_iff_eq_append.mp (List.isPrefixOf_iff_prefix.mp hocc.2) |>.symm
    rw [hsplit, ← List.append_assoc] at h
    obtain ⟨hbefore, hafter⟩ := pairedUnits_of_occurrence h hp hocc.1
    have hscan := ih [] (by simpa using hafter)
    rw [scanReplace, dif_pos hocc]
    exact pairedUnits_append hbefore (pairedUnits_append hr (by simpa using hscan))
  | passes c rest hpass ih =>
    intro before h
    have hscan := ih (before ++ [c]) (by simpa using h)
    rw [scanReplace, dif_neg hpass]
    simpa using hscan

/-- Replacing every occurrence of a pattern that pairs its surrogates by a replacement that pairs
its own keeps the surrogates of a text paired. -/
theorem pairedUnits_replaceAll (hp : pairedUnits p = true) (hr : pairedUnits r = true)
    {text : List UInt16} (h : pairedUnits text = true) :
    pairedUnits (replaceAll p r text) = true := by
  have hscan := pairedUnits_scanReplace hp hr text [] (by simpa using h)
  rw [scanReplace_eq] at hscan
  simpa using hscan

end Literal

namespace Table

open Text

/-- A run of rules whose patterns and replacements pair their surrogates keeps the surrogates of
the units paired. -/
theorem pairedUnits_runRules (rules : List Rule) {us : List UInt16}
    (hrules : ∀ r ∈ rules, isWellFormed r.pattern = true ∧ isWellFormed r.replacement = true)
    (h : pairedUnits us = true) : pairedUnits (runRules rules us).1 = true := by
  induction rules generalizing us with
  | nil => exact h
  | cons r rs ih =>
    have hrest := fun r' hr' => hrules r' (List.mem_cons_of_mem r hr')
    obtain ⟨hp, hr⟩ := hrules r List.mem_cons_self
    by_cases hn : (r.cut us).length - 1 = 0
    · simp only [runRules, hn, if_true]
      exact ih hrest h
    · -- the rule occurs: its pieces joined by the replacement are the replaced units
      simp only [runRules, hn, if_false]
      exact ih hrest (Literal.pairedUnits_replaceAll hp hr h)

/-- A table whose patterns and replacements hold no lone surrogate, applied to a text that holds
none, gives texts that hold none: after each of its rules, and at the end. The result, written out
as UTF-8, reads back as the same code units. -/
theorem applyWithStats_keeps_surrogates_paired (T : Table) (text : String)
    (hrules : ∀ r ∈ T.rules, isWellFormed r.pattern = true ∧ isWellFormed r.replacement = true)
    (htext : isWellFormed text = true) :
    (∀ k, pairedUnits (runRules (T.rules.take k) (units text)).1 = true) ∧
      isWellFormed (T.applyWithStats text).text = true ∧
      ∃ t, Utf8.decode? (Utf8.encodeText (T.applyWithStats text).text) = some t ∧
        units t = units (T.applyWithStats text).text := by
  have hsteps : ∀ k, pairedUnits (runRules (T.rules.take k) (units text)).1 = true :=
    fun k => pairedUnits_runRules _ (fun r hr => hrules r (List.mem_of_mem_take hr)) htext
  -- the text given back is the text itself when nothing occurred, else the run's last units
  have hresult : isWellFormed (T.applyWithStats text).text = true := by
    by_cases hnil : (runRules T.rules (units text)).2 = []
    · simpa [applyWithStats, hnil] using htext
    · have hall := hsteps T.rules.length
      rw [List.take_length] at hall
      simpa [applyWithStats, hnil, isWellFormed, units_ofUnits] using hall
  exact ⟨hsteps, hresult, Utf8.decode?_encodeText hresult⟩

/-- A table that trades an emoji for a letter and back keeps a text of emoji and letters paired. -/
theorem emoji_rules_keep_surrogates_paired :
    (∀ r ∈ (⟨[⟨"😀", "a"⟩, ⟨"b", "🙂"⟩], by decide, by decide⟩ : Table).rules,
        isWellFormed r.pattern = true ∧ isWellFormed r.replacement = true) ∧
      isWellFormed "b😀b" = true ∧
      isWellFormed ((⟨[⟨"😀", "a"⟩, ⟨"b", "🙂"⟩], by decide, by decide⟩ : Table).applyWithStats
        "b😀b").text = true := by
  have hrules : ∀ r ∈ (⟨[⟨"😀", "a"⟩, ⟨"b", "🙂"⟩], by decide, by decide⟩ : Table).rules,
      isWellFormed r.pattern = true ∧ isWellFormed r.replacement = true := by decide
  have htext : isWellFormed "b😀b" = true := by decide
  exact ⟨hrules, htext, (applyWithStats_keeps_surrogates_paired _ _ hrules htext).2.1⟩

end Table

end Reword
