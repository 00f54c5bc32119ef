import Mathlib
import Reword.Text.Utf8
/-!
# Writing text out and reading it back

Text is written out as UTF-8: its code units are read as Unicode scalar values, a lone surrogate
as U+FFFD (`Text.scalarsOfUnits`), and each scalar value becomes one to four bytes
(`Utf8.encodeChar`). It is read back strictly: the bytes are decoded one sequence at a time
(`Utf8.decodeParts`), and a single fault refuses the whole text (`Utf8.decode?`).

**Bytes.** Well-formed UTF-8 is what the writer writes, the bytes of some sequence of scalar
values (`Utf8.WellFormed`), and the decoder is sound and complete for it. The bytes of scalar
values decode to them (`decodeParts_encode`, one character at a time by `step_encodeChar`), and
bytes that decode with no fault are the bytes of what they decode to (`encode_of_decodeParts`,
by `encodeChar_of_step`). So strict decoding succeeds exactly on well-formed UTF-8
(`decode?_isSome_iff`), and a decoded text is written out as the very bytes it was read from
(`encodeText_of_decode?`). A byte order mark is a scalar value like any other: it is decoded
and kept.

**Text.** Taking scalar values in through their code units and reading the units back gives the
same values (`scalarsOfUnits_flatMap_scalarUnits`); reading units as scalar values and taking
their units again gives the units back when every surrogate has its partner
(`flatMap_scalarUnits_scalarsOfUnits`). So a text with no lone surrogate, written out and read
back, is the same sequence of code units (`decode?_encodeText`). A lone surrogate is written as
U+FFFD and does not come back.

The decoder is taken apart as it reads: the class of the lead byte (`step_ascii`, `step_two`,
`step_three`, `step_four`, `step_refused`), then the continuation bytes, whose ranges and value
`continueWith_within` and `continueWith_eq_some` give in both directions.
-/

namespace Reword.Text

/-! ## Scalar values and code units -/

/-- Whether code units pair every surrogate: each high surrogate is followed by a low one, and
each low surrogate follows a high one. -/
def pairedUnits : List UInt16 → Bool
  | [] => true
  | [u] => !isSurrogate u
  | u :: w :: rest =>
    if isHigh u && isLow w then pairedUnits rest else !isSurrogate u && pairedUnits (w :: rest)

/-- Whether a text holds no lone surrogate. -/
def isWellFormed (s : String) : Bool :=
  pairedUnits (units s)

theorem scalar_toNat (c : Char) : c.toNat < 0xD800 ∨ (0xDFFF < c.toNat ∧ c.toNat < 0x110000) :=
  c.valid

/-- A unit that is no surrogate is read alone as the character it is. -/
theorem scalarUnits_unitScalar {u : UInt16} (h : isSurrogate u = false) :
    scalarUnits (unitScalar u) = [u] := by
  have hr : u.toNat < 0xD800 ∨ 0xDFFF < u.toNat := by simp [isSurrogate] at h; omega
  have hn : (Char.ofNat u.toNat).toNat = u.toNat := toNat_charOfNat (by
    simp only [Nat.isValidChar]; have := u.toNat_lt; omega)
  simp only [unitScalar, h, Bool.false_eq_true, if_false, scalarUnits, hn]
  rw [if_pos (by have := u.toNat_lt; omega), toUInt16_toNat]

/-- A high and a low surrogate are read as one character, written as the same two units. -/
theorem scalarUnits_pairPoint {u w : UInt16} (h : (isHigh u && isLow w) = true) :
    scalarUnits (Char.ofNat (pairPoint u.toNat w.toNat)) = [u, w] := by
  have hr : 0xD800 ≤ u.toNat ∧ u.toNat ≤ 0xDBFF ∧ 0xDC00 ≤ w.toNat ∧ w.toNat ≤ 0xDFFF := by
    simp [isHigh, isLow] at h; omega
  have hv : (pairPoint u.toNat w.toNat).isValidChar := by unfold Nat.isValidChar pairPoint; omega
  have hn := toNat_charOfNat hv
  have high : 0xD800 + (pairPoint u.toNat w.toNat - 0x10000) / 0x400 = u.toNat := by
    unfold pairPoint; omega
  have low : 0xDC00 + (pairPoint u.toNat w.toNat - 0x10000) % 0x400 = w.toNat := by
    unfold pairPoint; omega
  simp only [scalarUnits, hn]
  rw [if_neg (by unfold pairPoint; omega), high, low, toUInt16_toNat, toUInt16_toNat]

/-- Units whose surrogates are all paired are the units of the characters read from them. -/
theorem flatMap_scalarUnits_scalarsOfUnits {us : List UInt16} (h : pairedUnits us = true) :
    (scalarsOfUnits us).flatMap scalarUnits = us := by
  fun_induction scalarsOfUnits us with
  | case1 => rfl
  | case2 u =>
    have hu : isSurrogate u = false := by simpa [pairedUnits] using h
    simp [scalarUnits_unitScalar hu]
  | case3 u w rest hp ih =>
    rw [pairedUnits, if_pos hp] at h
    simp [scalarUnits_pairPoint hp, ih h]
  | case4 u w rest hp ih =>
    rw [pairedUnits, if_neg hp, Bool.and_eq_true] at h
    have hu : isSurrogate u = false := by simpa using h.1
    rw [List.flatMap_cons, scalarUnits_unitScalar hu, ih h.2]
    rfl

/-- A unit that is no surrogate is a character of its own, whatever follows it. -/
theorem scalarsOfUnits_cons {u : UInt16} (h : isSurrogate u = false) (rest : List UInt16) :
    scalarsOfUnits (u :: rest) = unitScalar u :: scalarsOfUnits rest := by
  have hhigh : isHigh u = false := by
    simp only [isSurrogate, isHigh, Bool.and_eq_false_iff, decide_eq_false_iff_not] at h ⊢; omega
  cases rest with
  | nil => rfl
  | cons w more => rw [scalarsOfUnits, if_neg (by simp [hhigh])]

/-- The units of a character, one unit below U+10000 and a pair above. -/
theorem scalarUnits_cases (c : Char) :
    (c.toNat < 0x10000 ∧ isSurrogate c.toNat.toUInt16 = false ∧
        scalarUnits c = [c.toNat.toUInt16] ∧ unitScalar c.toNat.toUInt16 = c) ∨
      ∃ u w, (isHigh u && isLow w) = true ∧ scalarUnits c = [u, w] ∧
        Char.ofNat (pairPoint u.toNat w.toNat) = c := by
  have hc := scalar_toNat c
  rcases Nat.lt_or_ge c.toNat 0x10000 with hlt | hge
  · have hn : c.toNat.toUInt16.toNat = c.toNat := by simp; omega
    have hu : isSurrogate c.toNat.toUInt16 = false := by simp only [isSurrogate, hn]; simp; omega
    refine .inl ⟨hlt, hu, by simp [scalarUnits, hlt], ?_⟩
    simp only [unitScalar, hu, Bool.false_eq_true, if_false, hn, Char.ofNat_toNat]
  · refine .inr ⟨(0xD800 + (c.toNat - 0x10000) / 0x400).toUInt16,
      (0xDC00 + (c.toNat - 0x10000) % 0x400).toUInt16, ?_, ?_, ?_⟩
    · simp [isHigh, isLow]; omega
    · simp only [scalarUnits]; rw [if_neg (by omega)]
    · have hhigh : (0xD800 + (c.toNat - 0x10000) / 0x400).toUInt16.toNat =
          0xD800 + (c.toNat - 0x10000) / 0x400 := by simp; omega
      have hlow : (0xDC00 + (c.toNat - 0x10000) % 0x400).toUInt16.toNat =
          0xDC00 + (c.toNat - 0x10000) % 0x400 := by simp; omega
      have hp : pairPoint (0xD800 + (c.toNat - 0x10000) / 0x400)
          (0xDC00 + (c.toNat - 0x10000) % 0x400) = c.toNat := by unfold pairPoint; omega
      rw [hhigh, hlow, hp, Char.ofNat_toNat]

/-- Reading the units of scalar values gives the scalar values back. -/
theorem scalarsOfUnits_flatMap_scalarUnits (cs : List Char) :
    scalarsOfUnits (cs.flatMap scalarUnits) = cs := by
  induction cs with
  | nil => rfl
  | cons c cs ih =>
    rw [List.flatMap_cons]
    rcases scalarUnits_cases c with ⟨-, hu, hunits, hc⟩ | ⟨u, w, hp, hunits, hc⟩
    · rw [hunits, List.singleton_append, scalarsOfUnits_cons hu, hc, ih]
    · rw [hunits, List.cons_append, List.cons_append, List.nil_append, scalarsOfUnits,
        if_pos hp, hc, ih]

namespace Utf8

/-! ## One sequence -/

theorem toNat_byte {n : Nat} (h : n < 0x100) : n.toUInt8.toNat = n := by
  simp; omega

/-- A byte is the byte of its value. -/
theorem byte_eq {n : Nat} {b : UInt8} (h : n = b.toNat) : n.toUInt8 = b := by
  subst h
  exact UInt8.ofNat_toNat

theorem within_iff {b : UInt8} {lo hi : Nat} :
    within b lo hi = true ↔ lo ≤ b.toNat ∧ b.toNat ≤ hi := by
  simp [within]

/-- A continuation byte outside the range asked for is a fault, however many are still owed. -/
theorem continueWith_cons_refused {value lo hi more used : Nat} {y : UInt8} {rest : List UInt8}
    (hy : within y lo hi = false) : continueWith value lo hi more (y :: rest) used = (none, used) := by
  cases more <;> simp [continueWith, hy]

/-- Reading continuation bytes gives a character only if the first byte is there and in range. -/
theorem head_of_continueWith {value lo hi more used k : Nat} {bs : List UInt8} {c : Char}
    (h : continueWith value lo hi more bs used = (some c, k)) :
    ∃ y rest, bs = y :: rest ∧ within y lo hi = true := by
  rcases bs with _ | ⟨y, rest⟩
  · cases more <;> simp [continueWith] at h
  cases hy : within y lo hi
  · rw [continueWith_cons_refused hy] at h
    cases h
  · exact ⟨y, rest, rfl, hy⟩

/-- Continuation bytes in range are read as a character: six more bits of the value each. -/
theorem continueWith_within {value lo hi more used : Nat} {y : UInt8} {ys : List UInt8}
    (rest : List UInt8) (hlen : ys.length = more) (hy : within y lo hi = true)
    (hys : ∀ z ∈ ys, within z 0x80 0xBF = true) :
    continueWith value lo hi more (y :: ys ++ rest) used =
      (some (Char.ofNat ((y :: ys).foldl (fun acc z => acc * 0x40 + payload z) value)),
        used + more + 1) := by
  subst hlen
  induction ys generalizing value lo hi y used with
  | nil => simp [continueWith, hy]
  | cons z ys ih =>
    simp only [List.mem_cons, forall_eq_or_imp] at hys
    simp only [List.cons_append, List.length_cons, continueWith, hy, if_true]
    rw [← List.cons_append, ih hys.1 hys.2, List.foldl_cons]
    congr 1
    omega

/-- What continuation bytes read as a character were: the first in the range the lead byte
gives, the others in `0x80 ... 0xBF`, and the character the value they spell. -/
theorem continueWith_eq_some {value lo hi more used k : Nat} {bs : List UInt8} {c : Char}
    (h : continueWith value lo hi more bs used = (some c, k)) :
    ∃ y ys rest, bs = y :: ys ++ rest ∧ ys.length = more ∧ within y lo hi = true ∧
      (∀ z ∈ ys, within z 0x80 0xBF = true) ∧
      c = Char.ofNat ((y :: ys).foldl (fun acc z => acc * 0x40 + payload z) value) ∧
      k = used + more + 1 := by
  obtain ⟨y, rest, rfl, hy⟩ := head_of_continueWith h
  induction more generalizing value lo hi y rest used with
  | zero =>
    simp only [continueWith, hy, if_true, Prod.mk.injEq, Option.some.injEq] at h
    obtain ⟨rfl, rfl⟩ := h
    exact ⟨y, [], rest, rfl, rfl, hy, by simp, rfl, rfl⟩
  | succ more ih =>
    simp only [continueWith, hy, if_true] at h
    -- the bytes after the first are read as a sequence of their own, one byte shorter
    obtain ⟨y', rest', rfl, hy'⟩ := head_of_continueWith h
    obtain ⟨y', ys, rest'', h', hlen, hy', hys, rfl, rfl⟩ := ih y' rest' hy' h
    refine ⟨y, y' :: ys, rest'', by rw [h']; rfl, by simp [hlen], hy, ?_, rfl, by omega⟩
    simp only [List.mem_cons, forall_eq_or_imp]
    exact ⟨hy', hys⟩

/-! ### The lead byte -/

theorem step_ascii {b : UInt8} (h : b.toNat < 0x80) (rest : List UInt8) :
    step b rest = (some (Char.ofNat b.toNat), 0) := by
  simp [step, h]

theorem step_two {b : UInt8} (h : 0xC2 ≤ b.toNat ∧ b.toNat ≤ 0xDF) (rest : List UInt8) :
    step b rest = continueWith (b.toNat % 0x20) 0x80 0xBF 0 rest 0 := by
  simp only [step]
  rw [if_neg (by omega), if_pos h]

theorem step_three {b : UInt8} (h : 0xE0 ≤ b.toNat ∧ b.toNat ≤ 0xEF) (rest : List UInt8) :
    step b rest = continueWith (b.toNat % 0x10) (if b.toNat = 0xE0 then 0xA0 else 0x80)
      (if b.toNat = 0xED then 0x9F else 0xBF) 1 rest 0 := by
  simp only [step]
  rw [if_neg (by omega), if_neg (by omega)]
  by_cases h0 : b.toNat = 0xE0
  · simp [h0]
  by_cases hd : b.toNat = 0xED
  · simp [hd]
  rw [if_neg h0, if_neg hd, if_pos (by omega), if_neg h0, if_neg hd]

theorem step_four {b : UInt8} (h : 0xF0 ≤ b.toNat ∧ b.toNat ≤ 0xF4) (rest : List UInt8) :
    step b rest = continueWith (b.toNat % 0x08) (if b.toNat = 0xF0 then 0x90 else 0x80)
      (if b.toNat = 0xF4 then 0x8F else 0xBF) 2 rest 0 := by
  simp only [step]
  rw [if_neg (by omega), if_neg (by omega), if_neg (by omega), if_neg (by omega),
    if_neg (by omega)]
  by_cases h0 : b.toNat = 0xF0
  · simp [h0]
  by_cases h4 : b.toNat = 0xF4
  · simp [h4]
  rw [if_neg h0, if_neg h4, if_pos (by omega), if_neg h0, if_neg h4]

theorem step_refused {b : UInt8} (h : (0x80 ≤ b.toNat ∧ b.toNat < 0xC2) ∨ 0xF5 ≤ b.toNat)
    (rest : List UInt8) : step b rest = (none, 0) := by
  simp only [step]
  repeat rw [if_neg (by omega)]

/-! ### The bytes of a character -/

theorem eq_charOfNat {c : Char} {n : Nat} (h : n = c.toNat) : c = Char.ofNat n := by
  rw [h, Char.ofNat_toNat]

theorem encodeChar_one {c : Char} (h : c.toNat < 0x80) : encodeChar c = [c.toNat.toUInt8] := by
  simp [encodeChar, h]

theorem encodeChar_two {c : Char} (h : 0x80 ≤ c.toNat ∧ c.toNat < 0x800) :
    encodeChar c = [(0xC0 + c.toNat / 0x40).toUInt8, (0x80 + c.toNat % 0x40).toUInt8] := by
  simp only [encodeChar]
  rw [if_neg (by omega), if_pos h.2]

theorem encodeChar_three {c : Char} (h : 0x800 ≤ c.toNat ∧ c.toNat < 0x10000) :
    encodeChar c = [(0xE0 + c.toNat / 0x1000).toUInt8, (0x80 + c.toNat / 0x40 % 0x40).toUInt8,
      (0x80 + c.toNat % 0x40).toUInt8] := by
  simp only [encodeChar]
  rw [if_neg (by omega), if_neg (by omega), if_pos h.2]

theorem encodeChar_four {c : Char} (h : 0x10000 ≤ c.toNat) :
    encodeChar c = [(0xF0 + c.toNat / 0x40000).toUInt8, (0x80 + c.toNat / 0x1000 % 0x40).toUInt8,
      (0x80 + c.toNat / 0x40 % 0x40).toUInt8, (0x80 + c.toNat % 0x40).toUInt8] := by
  simp only [encodeChar]
  rw [if_neg (by omega), if_neg (by omega), if_neg (by omega)]

/-- The lead byte of a character's bytes reads the others back as the character. -/
theorem step_encodeChar (c : Char) :
    ∃ x ys, encodeChar c = x :: ys ∧ ∀ rest, step x (ys ++ rest) = (some c, ys.length) := by
  have hc := scalar_toNat c
  rcases Nat.lt_or_ge c.toNat 0x80 with h1 | h1
  · refine ⟨_, [], encodeChar_one h1, fun rest => ?_⟩
    rw [step_ascii (by rw [toNat_byte (by omega)]; exact h1), toNat_byte (by omega),
      Char.ofNat_toNat]
    rfl
  rcases Nat.lt_or_ge c.toNat 0x800 with h2 | h2
  · refine ⟨_, _, encodeChar_two ⟨h1, h2⟩, fun rest => ?_⟩
    have hx := toNat_byte (show 0xC0 + c.toNat / 0x40 < 0x100 by omega)
    have hy := toNat_byte (show 0x80 + c.toNat % 0x40 < 0x100 by omega)
    rw [step_two (by omega), continueWith_within rest ?_ (by simp [within]; omega) (by simp)]
    · refine Prod.ext (congrArg some (eq_charOfNat ?_).symm) rfl
      simp only [List.foldl, payload, hx, hy]
      omega
    · rfl
  rcases Nat.lt_or_ge c.toNat 0x10000 with h3 | h3
  · refine ⟨_, _, encodeChar_three ⟨h2, h3⟩, fun rest => ?_⟩
    have hx := toNat_byte (show 0xE0 + c.toNat / 0x1000 < 0x100 by omega)
    have hy := toNat_byte (show 0x80 + c.toNat / 0x40 % 0x40 < 0x100 by omega)
    have hz := toNat_byte (show 0x80 + c.toNat % 0x40 < 0x100 by omega)
    have hyw : within (0x80 + c.toNat / 0x40 % 0x40).toUInt8
        (if (0xE0 + c.toNat / 0x1000).toUInt8.toNat = 0xE0 then 0xA0 else 0x80)
        (if (0xE0 + c.toNat / 0x1000).toUInt8.toNat = 0xED then 0x9F else 0xBF) = true := by
      simp only [within, hx, hy]
      split_ifs <;> simp <;> omega
    rw [step_three (by omega), continueWith_within rest ?_ hyw (by simp [within]; omega)]
    · refine Prod.ext (congrArg some (eq_charOfNat ?_).symm) rfl
      simp only [List.foldl, payload, hx, hy, hz]
      omega
    · rfl
  · refine ⟨_, _, encodeChar_four h3, fun rest => ?_⟩
    have hx := toNat_byte (show 0xF0 + c.toNat / 0x40000 < 0x100 by omega)
    have hy := toNat_byte (show 0x80 + c.toNat / 0x1000 % 0x40 < 0x100 by omega)
    have hz := toNat_byte (show 0x80 + c.toNat / 0x40 % 0x40 < 0x100 by omega)
    have hw := toNat_byte (show 0x80 + c.toNat % 0x40 < 0x100 by omega)
    have hyw : within (0x80 + c.toNat / 0x1000 % 0x40).toUInt8
        (if (0xF0 + c.toNat / 0x40000).toUInt8.toNat = 0xF0 then 0x90 else 0x80)
        (if (0xF0 + c.toNat / 0x40000).toUInt8.toNat = 0xF4 then 0x8F else 0xBF) = true := by
      simp only [within, hx, hy]
      split_ifs <;> simp <;> omega
    rw [step_four (by omega), continueWith_within rest ?_ hyw (by simp [within]; omega)]
    · refine Prod.ext (congrArg some (eq_charOfNat ?_).symm) rfl
      simp only [List.foldl, payload, hx, hy, hz, hw]
      omega
    · rfl

/-! ### Bytes read back as a character are its bytes -/

theorem encodeChar_of_step {b : UInt8} {bs : List UInt8} {c : Char} {k : Nat}
    (h : step b bs = (some c, k)) :
    ∃ ys rest, bs = ys ++ rest ∧ ys.length = k ∧ encodeChar c = b :: ys := by
  have hb := b.toNat_lt
  rcases Nat.lt_or_ge b.toNat 0x80 with h1 | h1
  · rw [step_ascii h1, Prod.mk.injEq, Option.some.injEq] at h
    obtain ⟨rfl, rfl⟩ := h
    have hn := toNat_charOfNat (show b.toNat.isValidChar by unfold Nat.isValidChar; omega)
    refine ⟨[], bs, rfl, rfl, ?_⟩
    rw [encodeChar_one (by omega), hn, byte_eq rfl]
  rcases Nat.lt_or_ge b.toNat 0xC2 with h2 | h2
  · rw [step_refused (.inl ⟨h1, h2⟩)] at h
    cases h
  rcases Nat.lt_or_ge b.toNat 0xE0 with h3 | h3
  · rw [step_two ⟨h2, by omega⟩] at h
    obtain ⟨y, ys, rest, rfl, hlen, hy, -, rfl, rfl⟩ := continueWith_eq_some h
    rw [List.length_eq_zero_iff] at hlen
    subst hlen
    rw [within_iff] at hy
    simp only [List.foldl, payload]
    have hn := toNat_charOfNat
      (show (b.toNat % 0x20 * 0x40 + y.toNat % 0x40).isValidChar by unfold Nat.isValidChar; omega)
    refine ⟨[y], rest, rfl, rfl, ?_⟩
    rw [encodeChar_two (by rw [hn]; omega), hn]
    simp only [List.cons.injEq, and_true]
    exact ⟨byte_eq (by omega), byte_eq (by omega)⟩
  rcases Nat.lt_or_ge b.toNat 0xF0 with h4 | h4
  · rw [step_three ⟨h3, by omega⟩] at h
    obtain ⟨y, ys, rest, rfl, hlen, hy, hys, rfl, rfl⟩ := continueWith_eq_some h
    obtain ⟨z, rfl⟩ := List.length_eq_one_iff.1 hlen
    have hz := within_iff.1 (hys z (by simp))
    -- the lead byte narrows the range of the second byte at E0 and ED
    have hy' : 0x80 ≤ y.toNat ∧ y.toNat ≤ 0xBF ∧ (b.toNat = 0xE0 → 0xA0 ≤ y.toNat) ∧
        (b.toNat = 0xED → y.toNat ≤ 0x9F) := by
      rw [within_iff] at hy
      split_ifs at hy <;> omega
    simp only [List.foldl, payload]
    have hn := toNat_charOfNat (show ((b.toNat % 0x10 * 0x40 + y.toNat % 0x40) * 0x40 +
      z.toNat % 0x40).isValidChar by unfold Nat.isValidChar; omega)
    refine ⟨[y, z], rest, rfl, rfl, ?_⟩
    rw [encodeChar_three (by rw [hn]; omega), hn]
    simp only [List.cons.injEq, and_true]
    exact ⟨byte_eq (by omega), byte_eq (by omega), byte_eq (by omega)⟩
  rcases Nat.lt_or_ge b.toNat 0xF5 with h5 | h5
  · rw [step_four ⟨h4, by omega⟩] at h
    obtain ⟨y, ys, rest, rfl, hlen, hy, hys, rfl, rfl⟩ := continueWith_eq_some h
    obtain ⟨z, w, rfl⟩ := List.length_eq_two.1 hlen
    have hz := within_iff.1 (hys z (by simp))
    have hw := within_iff.1 (hys w (by simp))
    -- the lead byte narrows the range of the second byte at F0 and F4
    have hy' : 0x80 ≤ y.toNat ∧ y.toNat ≤ 0xBF ∧ (b.toNat = 0xF0 → 0x90 ≤ y.toNat) ∧
        (b.toNat = 0xF4 → y.toNat ≤ 0x8F) := by
      rw [within_iff] at hy
      split_ifs at hy <;> omega
    simp only [List.foldl, payload]
    have hn := toNat_charOfNat (show (((b.toNat % 0x08 * 0x40 + y.toNat % 0x40) * 0x40 +
      z.toNat % 0x40) * 0x40 + w.toNat % 0x40).isValidChar by unfold Nat.isValidChar; omega)
    refine ⟨[y, z, w], rest, rfl, rfl, ?_⟩
    rw [encodeChar_four (by rw [hn]; omega), hn]
    simp only [List.cons.injEq, and_true]
    exact ⟨byte_eq (by omega), byte_eq (by omega), byte_eq (by omega), byte_eq (by omega)⟩
  · rw [step_refused (.inr h5)] at h
    cases h

/-! ## Byte sequences -/


/-- Well-formed UTF-8: the bytes of a sequence of Unicode scalar values. -/
def WellFormed (bytes : List UInt8) : Prop :=
  ∃ cs, encode cs = bytes

theorem decodeParts_cons (b : UInt8) (rest : List UInt8) :
    decodeParts (b :: rest) = (step b rest).1 :: decodeParts (rest.drop (step b rest).2) := by
  rw [decodeParts]

/-- The bytes of scalar values decode to them, with no fault. -/
theorem decodeParts_encode (cs : List Char) : decodeParts (encode cs) = cs.map some := by
  induction cs with
  | nil => simp [encode, decodeParts]
  | cons c cs ih =>
    obtain ⟨x, ys, hx, hstep⟩ := step_encodeChar c
    simp only [encode, List.flatMap_cons, hx, List.cons_append, decodeParts_cons, hstep,
      List.drop_left] at ih ⊢
    rw [ih, List.map_cons]

/-- Bytes that decode with no fault are the bytes of what they decode to. -/
theorem encode_of_decodeParts {bytes : List UInt8} {cs : List Char}
    (h : decodeParts bytes = cs.map some) : encode cs = bytes := by
  induction bytes using decodeParts.induct generalizing cs with
  | case1 =>
    rw [decodeParts, eq_comm, List.map_eq_nil_iff] at h
    simp [h, encode]
  | case2 b rest c used hstep ih =>
    rw [decodeParts_cons, hstep] at h
    obtain ⟨c', cs', rfl, hc, hrest⟩ := List.map_eq_cons_iff.1 h.symm
    subst hc
    obtain ⟨ys, more, rfl, rfl, hbytes⟩ := encodeChar_of_step hstep
    rw [List.drop_left] at ih hrest
    simp only [encode, List.flatMap_cons, hbytes] at ih ⊢
    rw [ih hrest.symm, List.cons_append]

theorem mapM_id_eq_some {l : List (Option Char)} {cs : List Char} :
    l.mapM id = some cs ↔ l = cs.map some := by
  induction l generalizing cs with
  | nil => cases cs <;> simp
  | cons o l ih =>
    cases o with
    | none =>
      cases cs <;> simp
    | some a =>
      cases cs with
      | nil => simp [Option.bind_eq_some_iff]
      | cons c cs =>
        simp only [List.mapM_cons, id, Option.pure_def, Option.bind_eq_bind, Option.bind_eq_some_iff,
          ih, Option.some.injEq, List.cons.injEq, List.map_cons]
        constructor
        · rintro ⟨t, rfl, ts, hl, rfl, rfl⟩
          exact ⟨rfl, hl⟩
        · rintro ⟨rfl, hl⟩
          exact ⟨a, rfl, cs, hl, rfl, rfl⟩

/-- Strict decoding gives a text exactly for the bytes of scalar values: the text of those
values. -/
theorem decode?_eq_some_iff {bytes : List UInt8} {s : String} :
    decode? bytes = some s ↔ ∃ cs, encode cs = bytes ∧ s = ofScalars cs := by
  constructor
  · intro h
    obtain ⟨cs, hcs, rfl⟩ := Option.map_eq_some_iff.1 h
    exact ⟨cs, encode_of_decodeParts (mapM_id_eq_some.1 hcs), rfl⟩
  · rintro ⟨cs, rfl, rfl⟩
    simp only [decode?, decodeParts_encode, mapM_id_eq_some.2 rfl, Option.map_some]

theorem decode?_isSome_iff {bytes : List UInt8} : (decode? bytes).isSome ↔ WellFormed bytes := by
  rw [Option.isSome_iff_exists]
  constructor
  · rintro ⟨s, hs⟩
    obtain ⟨cs, hcs, -⟩ := decode?_eq_some_iff.1 hs
    exact ⟨cs, hcs⟩
  · rintro ⟨cs, hcs⟩
    exact ⟨_, decode?_eq_some_iff.2 ⟨cs, hcs, rfl⟩⟩

/-- The text of scalar values is written out as their bytes. -/
theorem encodeText_ofScalars (cs : List Char) : encodeText (ofScalars cs) = encode cs := by
  rw [encodeText, ofScalars, units_ofUnits, scalarsOfUnits_flatMap_scalarUnits]

/-- A decoded text is written out as the bytes it was decoded from. -/
theorem encodeText_of_decode? {bytes : List UInt8} {s : String} (h : decode? bytes = some s) :
    encodeText s = bytes := by
  obtain ⟨cs, rfl, rfl⟩ := decode?_eq_some_iff.1 h
  exact encodeText_ofScalars cs

/-- A text with no lone surrogate, written out and decoded, is the same sequence of code units. -/
theorem decode?_encodeText {s : String} (h : isWellFormed s = true) :
    ∃ t, decode? (encodeText s) = some t ∧ units t = units s := by
  refine ⟨_, decode?_eq_some_iff.2 ⟨_, rfl, rfl⟩, ?_⟩
  rw [ofScalars, units_ofUnits, flatMap_scalarUnits_scalarsOfUnits h]

end Utf8

end Reword.Text
