/-!
# UTF-16 code units

Text is held as `String`, a sequence of Unicode scalar values. Three rules of the program are
stated over UTF-16 code units instead: names are sorted by their code units, a name ends with an
extension when its last code units are the extension's, and similarity of option names is
measured in code units. This module gives the unit view of a string and the
order it induces.

Below U+10000 a character is one unit equal to its scalar value; above, it is a surrogate pair
whose high unit lies in `0xD800 ... 0xDBFF`. So unit order agrees with scalar order except that a
character above U+FFFF sorts before every character in `U+E000 ... U+FFFF`.

Text may also hold a surrogate without its partner, as a string of code units can. Since a
`String` holds scalar values only, such a unit `u` is carried by the character `U+100000 + u`,
one of the 2048 code points `U+10D800 ... U+10DFFF` in the middle of a private-use plane. Its unit view is the lone unit again. Reading units back pairs a high surrogate
with a low one right after it and carries any other surrogate; a pair whose code point lies among
the carriers is carried as two lone units. Text that comes from outside, as decoded bytes or a line
read in, is a sequence of scalar values; it is taken in through its code units (`ofScalars`), so
that a character among the carriers is the pair of units it is, and text goes out as the scalar
values of its units, each lone surrogate read as U+FFFD (`scalarsOfUnits`).

What is proved here: reading units back and taking the units again gives the units read
(`units_ofUnits`), so every sequence of code units is the unit view of some text.
-/

namespace Reword.Text

/-- The first code point that carries a lone surrogate. -/
def loneBase : Nat := 0x10D800

/-- Whether a unit is a surrogate. -/
def isSurrogate (u : UInt16) : Bool :=
  0xD800 ≤ u.toNat && u.toNat ≤ 0xDFFF

/-- The character that carries a lone surrogate unit. -/
def loneCarrier (u : UInt16) : Char :=
  Char.ofNat (loneBase + (u.toNat - 0xD800))

/-- Whether a character carries a lone surrogate. -/
def isLone (c : Char) : Bool :=
  loneBase ≤ c.toNat && c.toNat < loneBase + 0x800

/-- The UTF-16 code units of one character: itself below U+10000, the unit it carries for a
lone surrogate, else a surrogate pair. -/
def charUnits (c : Char) : List UInt16 :=
  let n := c.toNat
  if n < 0x10000 then [n.toUInt16]
  else if isLone c then [(n - loneBase + 0xD800).toUInt16]
  else
    let m := n - 0x10000
    [(0xD800 + m / 0x400).toUInt16, (0xDC00 + m % 0x400).toUInt16]

/-- The UTF-16 code units of a string, in order. -/
def units (s : String) : List UInt16 :=
  s.toList.flatMap charUnits

/-- The character of a unit read alone: the unit itself, or the carrier of a surrogate. -/
def unitChar (u : UInt16) : Char :=
  if isSurrogate u then loneCarrier u else Char.ofNat u.toNat

/-- The code point of a surrogate pair, given its two units. -/
def pairPoint (a b : Nat) : Nat :=
  0x10000 + (a - 0xD800) * 0x400 + (b - 0xDC00)

/-- Whether two units are a high and a low surrogate whose code point carries no lone unit. -/
def pairs (a b : Nat) : Prop :=
  0xD800 ≤ a ∧ a ≤ 0xDBFF ∧ 0xDC00 ≤ b ∧ b ≤ 0xDFFF ∧
    ¬(loneBase ≤ pairPoint a b ∧ pairPoint a b < loneBase + 0x800)

instance (a b : Nat) : Decidable (pairs a b) := inferInstanceAs (Decidable (_ ∧ _))

/-- The characters of UTF-16 code units: a high surrogate followed by a low one is one
character, and any other surrogate is carried alone. A pair whose code point is one of the
carriers is read as two lone units instead, so that the units of the characters are always the
units read. -/
def charsOfUnits : List UInt16 → List Char
  | [] => []
  | [u] => [unitChar u]
  | u :: w :: rest =>
    if pairs u.toNat w.toNat then Char.ofNat (pairPoint u.toNat w.toNat) :: charsOfUnits rest
    else unitChar u :: charsOfUnits (w :: rest)

/-- The string of UTF-16 code units. -/
def ofUnits (us : List UInt16) : String :=
  String.ofList (charsOfUnits us)

/-- Whether a unit is a high surrogate, the first of a pair. -/
def isHigh (u : UInt16) : Bool :=
  0xD800 ≤ u.toNat && u.toNat ≤ 0xDBFF

/-- Whether a unit is a low surrogate, the second of a pair. -/
def isLow (u : UInt16) : Bool :=
  0xDC00 ≤ u.toNat && u.toNat ≤ 0xDFFF

/-- The UTF-16 code units of a Unicode scalar value: itself below U+10000, else its surrogate
pair. Unlike `charUnits`, a character among the carriers is the scalar value it is. -/
def scalarUnits (c : Char) : List UInt16 :=
  let n := c.toNat
  if n < 0x10000 then [n.toUInt16]
  else
    let m := n - 0x10000
    [(0xD800 + m / 0x400).toUInt16, (0xDC00 + m % 0x400).toUInt16]

/-- The text of a sequence of Unicode scalar values, such as decoded bytes or a line read in. -/
def ofScalars (cs : List Char) : String :=
  ofUnits (cs.flatMap scalarUnits)

/-- The scalar value of a unit read alone: the unit itself, or U+FFFD for a surrogate. -/
def unitScalar (u : UInt16) : Char :=
  if isSurrogate u then '�' else Char.ofNat u.toNat

/-- The Unicode scalar values of UTF-16 code units, as they are written out: a high surrogate
followed by a low one is one character, and any other surrogate is U+FFFD. -/
def scalarsOfUnits : List UInt16 → List Char
  | [] => []
  | [u] => [unitScalar u]
  | u :: w :: rest =>
    if isHigh u && isLow w then Char.ofNat (pairPoint u.toNat w.toNat) :: scalarsOfUnits rest
    else unitScalar u :: scalarsOfUnits (w :: rest)

/-- The number of UTF-16 code units of a string. -/
def unitLength (s : String) : Nat :=
  (units s).length

/-- The most UTF-16 code units a string may hold: the engine refuses to make a longer one. -/
def maxUnits : Nat := Nat.pow 2 29 - 24

/-- Strict order on code-unit sequences: the first differing unit decides, and a proper prefix
comes first. -/
def unitsLt : List UInt16 → List UInt16 → Bool
  | [], [] => false
  | [], _ :: _ => true
  | _ :: _, [] => false
  | a :: as, b :: bs => if a = b then unitsLt as bs else decide (a < b)

/-- Strict code-unit order on strings. -/
def unitLt (a b : String) : Bool :=
  unitsLt (units a) (units b)

/-- Whether a string ends with another, compared code unit by code unit. -/
def endsWithUnits (s suffix : String) : Bool :=
  (units suffix).isSuffixOf (units s)

/-- Sorts strings into ascending code-unit order; equal strings keep their order. -/
def sortByUnits (xs : List String) : List String :=
  xs.mergeSort fun a b => !unitLt b a

/-! ## Reading units back -/

theorem toNat_charOfNat {n : Nat} (h : n.isValidChar) : (Char.ofNat n).toNat = n := by
  rw [Char.ofNat, dif_pos h]
  rfl

theorem toUInt16_toNat (u : UInt16) : u.toNat.toUInt16 = u :=
  UInt16.ofNat_toNat

/-- A unit read alone is its character's one unit: a surrogate through its carrier, anything
else as itself. -/
theorem charUnits_unitChar (u : UInt16) : charUnits (unitChar u) = [u] := by
  have hu := u.toNat_lt
  by_cases hs : isSurrogate u = true
  · have hr : 0xD800 ≤ u.toNat ∧ u.toNat ≤ 0xDFFF := by simpa [isSurrogate] using hs
    have hn : (loneCarrier u).toNat = loneBase + (u.toNat - 0xD800) := by
      unfold loneCarrier
      apply toNat_charOfNat
      simp only [Nat.isValidChar, loneBase]; omega
    have hl : isLone (loneCarrier u) = true := by simp [isLone, hn, loneBase]; omega
    have back : loneBase + (u.toNat - 0xD800) - loneBase + 0xD800 = u.toNat := by omega
    simp only [unitChar, hs, if_true, charUnits, hn, hl]
    rw [if_neg (by simp only [loneBase]; omega), back, toUInt16_toNat]
  · have hr : u.toNat < 0xD800 ∨ 0xDFFF < u.toNat := by
      simp [isSurrogate] at hs; omega
    have hn : (Char.ofNat u.toNat).toNat = u.toNat := by
      apply toNat_charOfNat
      simp only [Nat.isValidChar]; omega
    have hf : isSurrogate u = false := by simpa using hs
    simp only [unitChar, hf, Bool.false_eq_true, if_false, charUnits, hn]
    rw [if_pos (by omega), toUInt16_toNat]

/-- The character of a pair that `charsOfUnits` joins is written as the same two units. -/
theorem charUnits_pairPoint {u w : UInt16} (h : pairs u.toNat w.toNat) :
    charUnits (Char.ofNat (pairPoint u.toNat w.toNat)) = [u, w] := by
  obtain ⟨ha, ha', hb, hb', hl⟩ := h
  generalize hp : pairPoint u.toNat w.toNat = n at hl ⊢
  have hv : n.isValidChar := by
    unfold Nat.isValidChar; subst hp; unfold pairPoint; omega
  have hn := toNat_charOfNat hv
  have hnl : isLone (Char.ofNat n) = false := by simpa [isLone, hn] using hl
  have high : 0xD800 + (n - 0x10000) / 0x400 = u.toNat := by subst hp; unfold pairPoint; omega
  have low : 0xDC00 + (n - 0x10000) % 0x400 = w.toNat := by subst hp; unfold pairPoint; omega
  simp only [charUnits, hn, hnl, Bool.false_eq_true, if_false]
  rw [if_neg (by subst hp; unfold pairPoint; omega), high, low, toUInt16_toNat, toUInt16_toNat]

theorem charUnits_ne_nil (c : Char) : charUnits c ≠ [] := by
  intro h
  unfold charUnits at h
  dsimp only at h
  split at h
  · simp at h
  · split at h <;> simp at h

/-- Nonempty text has units. -/
theorem units_ne_nil {s : String} (h : s ≠ "") : units s ≠ [] := by
  intro hu
  apply h
  rw [← String.toList_inj, String.toList_empty]
  match hs : s.toList, hu with
  | [], _ => rfl
  | c :: _, hu => simp [units, hs, charUnits_ne_nil] at hu

/-- Reading code units as text and taking the units again gives the units read. -/
theorem units_ofUnits (us : List UInt16) : units (ofUnits us) = us := by
  simp only [units, ofUnits, String.toList_ofList]
  fun_induction charsOfUnits us with
  | case1 => rfl
  | case2 u => simp [charUnits_unitChar]
  | case3 u w rest h ih => simp [charUnits_pairPoint h, ih]
  | case4 u w rest h ih =>
    rw [List.flatMap_cons, charUnits_unitChar, ih]
    rfl

theorem unitsLt_irrefl (u : List UInt16) : unitsLt u u = false := by
  induction u with
  | nil => rfl
  | cons a as ih => simp [unitsLt, ih]

end Reword.Text
