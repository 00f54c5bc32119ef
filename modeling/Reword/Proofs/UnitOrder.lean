import Mathlib
import Reword.Text.Units
/-!
# The code-unit order on names

Names are sorted by their UTF-16 code units (`Text.unitLt`), and a name ends with an extension
when its last code units are the extension's (`Text.endsWithUnits`). Read as numbers, the code
units of a name are a `List Nat` (`Text.unitCodes`), and the order of names is the
lexicographic order of these lists (`unitLt_iff`), a linear order: sorting by it leaves codes
ascending (`pairwise_mergeSort_unitLt`).

Distinct texts may share their code units, since a lone surrogate is carried by a character of
its own: a carried high and low surrogate side by side have the units of the character they
pair into. A text that carries no lone surrogate (`Text.paired`) is read back from its units
(`charsOfUnits_units`), so such texts are apart in the order whenever they differ
(`eq_of_unitCodes_eq`).
-/

namespace Reword.Text

/-- The code units of a text, as numbers. -/
def unitCodes (s : String) : List Nat :=
  (units s).map UInt16.toNat

/-- Whether a text carries no lone surrogate. -/
def paired (s : String) : Bool :=
  s.toList.all fun c => !isLone c

/-- The order of code-unit sequences is the lexicographic order of their numbers. -/
theorem unitsLt_iff (us vs : List UInt16) :
    unitsLt us vs = true ↔ us.map UInt16.toNat < vs.map UInt16.toNat := by
  induction us generalizing vs with
  | nil => cases vs <;> simp [unitsLt, List.nil_lt_cons]
  | cons a as ih =>
    cases vs with
    | nil => simp [unitsLt, List.not_lt_nil]
    | cons b bs =>
      rw [List.map_cons, List.map_cons, List.cons_lt_cons_iff, ← ih bs, unitsLt]
      by_cases hab : a = b
      · subst hab
        simp
      · have hne : a.toNat ≠ b.toNat := fun h => hab (UInt16.toNat_inj.mp h)
        simp [hab, hne, UInt16.lt_iff_toNat_lt]

theorem unitLt_iff (a b : String) : unitLt a b = true ↔ unitCodes a < unitCodes b :=
  unitsLt_iff (units a) (units b)

/-- Sorting by code units leaves the codes of the sort keys ascending. -/
theorem pairwise_mergeSort_unitLt {α : Type} (key : α → String) (l : List α) :
    (l.mergeSort fun a b => !unitLt (key b) (key a)).Pairwise
      fun a b => unitCodes (key a) ≤ unitCodes (key b) := by
  have hle : ∀ a b, (!unitLt (key b) (key a)) = true ↔ unitCodes (key a) ≤ unitCodes (key b) := by
    intro a b
    rw [Bool.not_eq_true', ← Bool.not_eq_true, unitLt_iff, not_lt]
  refine (List.pairwise_mergeSort (fun a b c hab hbc => ?_) (fun a b => ?_) l).imp
    fun h => (hle _ _).mp h
  · exact (hle a c).mpr (((hle a b).mp hab).trans ((hle b c).mp hbc))
  · rcases le_total (unitCodes (key a)) (unitCodes (key b)) with h | h
    · simp [(hle a b).mpr h]
    · simp [(hle b a).mpr h]

/-! ## Reading units back -/

/-- A character that carries no lone surrogate is read back from its units, whatever units
follow them. -/
theorem charsOfUnits_charUnits_append {c : Char} (hc : isLone c = false) (us : List UInt16) :
    charsOfUnits (charUnits c ++ us) = c :: charsOfUnits us := by
  have hvalid : c.toNat.isValidChar := c.valid
  simp only [Nat.isValidChar] at hvalid
  by_cases hsmall : c.toNat < 0x10000
  · -- one unit, not a surrogate, so it pairs with nothing after it
    have hunit : c.toNat.toUInt16.toNat = c.toNat := UInt16.toNat_ofNat_of_lt' hsmall
    have hsurr : isSurrogate c.toNat.toUInt16 = false := by
      simp only [isSurrogate, hunit, Bool.and_eq_false_iff, decide_eq_false_iff_not, not_le]
      omega
    have hchar : unitChar c.toNat.toUInt16 = c := by
      simp only [unitChar, hsurr, Bool.false_eq_true, if_false, hunit, Char.ofNat_toNat]
    simp only [charUnits, hsmall, if_true, List.singleton_append]
    cases us with
    | nil => exact congrArg (· :: []) hchar
    | cons w rest =>
      have hnopair : ¬pairs c.toNat.toUInt16.toNat w.toNat := by
        simp only [pairs, hunit]
        omega
      rw [charsOfUnits, if_neg hnopair, hchar]
  · -- a surrogate pair whose code point is not a carrier
    have hhigh : (0xD800 + (c.toNat - 0x10000) / 0x400 : Nat).toUInt16.toNat =
        0xD800 + (c.toNat - 0x10000) / 0x400 := UInt16.toNat_ofNat_of_lt' (show _ < 65536 by omega)
    have hlow : (0xDC00 + (c.toNat - 0x10000) % 0x400 : Nat).toUInt16.toNat =
        0xDC00 + (c.toNat - 0x10000) % 0x400 := UInt16.toNat_ofNat_of_lt' (show _ < 65536 by omega)
    have hpoint : pairPoint (0xD800 + (c.toNat - 0x10000) / 0x400)
        (0xDC00 + (c.toNat - 0x10000) % 0x400) = c.toNat := by
      unfold pairPoint
      omega
    have hnotLone : ¬(loneBase ≤ c.toNat ∧ c.toNat < loneBase + 0x800) := by
      simpa [isLone] using hc
    have hpairs : pairs (0xD800 + (c.toNat - 0x10000) / 0x400 : Nat).toUInt16.toNat
        (0xDC00 + (c.toNat - 0x10000) % 0x400 : Nat).toUInt16.toNat := by
      rw [hhigh, hlow]
      refine ⟨by omega, by omega, by omega, by omega, ?_⟩
      rw [hpoint]
      exact hnotLone
    simp only [charUnits, hsmall, hc, Bool.false_eq_true, if_false, List.cons_append,
      List.nil_append]
    rw [charsOfUnits, if_pos hpairs, hhigh, hlow, hpoint, Char.ofNat_toNat]

/-- A text that carries no lone surrogate is read back from its units. -/
theorem charsOfUnits_units (s : String) (h : paired s = true) :
    charsOfUnits (units s) = s.toList := by
  simp only [paired, List.all_eq_true, Bool.not_eq_true'] at h
  simp only [units]
  generalize s.toList = cs at h ⊢
  induction cs with
  | nil => rfl
  | cons c rest ih =>
    rw [List.flatMap_cons, charsOfUnits_charUnits_append (h c List.mem_cons_self),
      ih fun x hx => h x (List.mem_cons_of_mem c hx)]

/-- Texts that carry no lone surrogate and have the same code units are equal. -/
theorem eq_of_unitCodes_eq {a b : String} (ha : paired a = true) (hb : paired b = true)
    (h : unitCodes a = unitCodes b) : a = b := by
  have hunits : units a = units b :=
    List.map_injective_iff.mpr (fun _ _ hx => UInt16.toNat_inj.mp hx) h
  apply String.toList_inj.mp
  rw [← charsOfUnits_units a ha, ← charsOfUnits_units b hb, hunits]

/-- A text ends with another, by code units, when the other's units end its units. -/
theorem endsWithUnits_iff (s suffix : String) :
    endsWithUnits s suffix = true ↔ units suffix <:+ units s :=
  List.isSuffixOf_iff_suffix

end Reword.Text
