/-!
# Literal occurrences in a sequence

A pattern occurs in a text wherever the text continues with the pattern. Scanning from the left
and resuming after each occurrence found cuts the text into pieces: the leftmost non-overlapping
occurrences are the cuts. Putting a replacement between the pieces replaces every such
occurrence; the text put in is never scanned again by the same cut.

An empty pattern occurs nowhere here: the text stays one piece. Callers that need a nonempty
pattern check it themselves.

The scan is written with a count of elements still to skip, so that it recurses on the text and
runs by evaluation; `split_of_occurs` and `split_of_not_occurs` give it back as the scan that
resumes after each occurrence, and `split_induction` follows that scan.

What is proved here: joining the pieces with the pattern gives the text back, and a pattern that
does not occur leaves one piece.
-/

namespace Reword.Literal

variable {α : Type} [DecidableEq α]

/-- Puts an element in front of the first piece. -/
def consHead (c : α) : List (List α) → List (List α)
  | [] => [[c]]
  | piece :: pieces => (c :: piece) :: pieces

/-- Cuts a text at the leftmost non-overlapping occurrences of a pattern, scanning from the
left, when the first `skip` elements of the text belong to an occurrence already cut. -/
def cutAfter (pattern : List α) : Nat → List α → List (List α)
  | _, [] => [[]]
  | skip + 1, _ :: rest => cutAfter pattern skip rest
  | 0, c :: rest =>
    if pattern ≠ [] ∧ pattern.isPrefixOf (c :: rest) = true then
      [] :: cutAfter pattern (pattern.length - 1) rest
    else
      consHead c (cutAfter pattern 0 rest)

/-- Cuts a text at the leftmost non-overlapping occurrences of a nonempty pattern, scanning from
the left. The result always has one piece more than there are occurrences. -/
def split (pattern text : List α) : List (List α) :=
  cutAfter pattern 0 text

/-- Replaces every leftmost non-overlapping occurrence of `pattern` by `replacement`. -/
def replaceAll (pattern replacement text : List α) : List α :=
  replacement.intercalate (split pattern text)

/-- The number of leftmost non-overlapping occurrences of `pattern` in `text`. -/
def occurrences (pattern text : List α) : Nat :=
  (split pattern text).length - 1

/-- The first occurrence of a pattern in a text: what comes before it and what comes after it.
An empty pattern occurs first at the start. -/
def firstCut (pattern : List α) : List α → Option (List α × List α)
  | [] => if pattern.isEmpty then some ([], []) else none
  | c :: rest =>
    if pattern.isPrefixOf (c :: rest) then some ([], (c :: rest).drop pattern.length)
    else (firstCut pattern rest).map fun cut => (c :: cut.1, cut.2)

/-! ## The scan, one step at a time -/

@[simp] theorem split_nil (pattern : List α) : split pattern [] = [[]] := rfl

/-- Skipping the elements an occurrence took is cutting what follows them. -/
theorem cutAfter_eq_split (pattern : List α) (skip : Nat) (text : List α) :
    cutAfter pattern skip text = split pattern (text.drop skip) := by
  induction text generalizing skip with
  | nil => cases skip <;> rfl
  | cons c rest ih =>
    cases skip with
    | zero => rfl
    | succ k => simp only [cutAfter, ih, List.drop_succ_cons]

/-- An occurrence at the front is cut off, and the scan resumes after it. -/
theorem split_of_occurs {pattern : List α} {c : α} {rest : List α}
    (h : pattern ≠ [] ∧ pattern.isPrefixOf (c :: rest) = true) :
    split pattern (c :: rest) = [] :: split pattern ((c :: rest).drop pattern.length) := by
  obtain ⟨p, ps, rfl⟩ := List.exists_cons_of_ne_nil h.1
  have step : split (p :: ps) (c :: rest) = [] :: cutAfter (p :: ps) ps.length rest := by
    rw [split, cutAfter, if_pos h]
    rfl
  rw [step, cutAfter_eq_split]
  rfl

/-- An element where the pattern does not start joins the first piece. -/
theorem split_of_not_occurs {pattern : List α} {c : α} {rest : List α}
    (h : ¬(pattern ≠ [] ∧ pattern.isPrefixOf (c :: rest) = true)) :
    split pattern (c :: rest) = consHead c (split pattern rest) := by
  simp only [split, cutAfter, if_neg h]

/-- Induction along the scan of a pattern: the empty text, an occurrence at the front with the
text after it, and an element where no occurrence starts with the text after it. -/
@[elab_as_elim]
theorem split_induction (pattern : List α) {motive : List α → Prop} (nil : motive [])
    (occurs : ∀ c rest, pattern ≠ [] ∧ pattern.isPrefixOf (c :: rest) = true →
      motive ((c :: rest).drop pattern.length) → motive (c :: rest))
    (passes : ∀ c rest, ¬(pattern ≠ [] ∧ pattern.isPrefixOf (c :: rest) = true) →
      motive rest → motive (c :: rest)) :
    (text : List α) → motive text
  | [] => nil
  | c :: rest =>
    if h : pattern ≠ [] ∧ pattern.isPrefixOf (c :: rest) = true then
      have : 0 < pattern.length := List.length_pos_iff.mpr h.1
      occurs c rest h (split_induction pattern nil occurs passes ((c :: rest).drop pattern.length))
    else
      passes c rest h (split_induction pattern nil occurs passes rest)
termination_by text => text.length
decreasing_by all_goals simp only [List.length_drop, List.length_cons]; omega

theorem split_ne_nil (pattern text : List α) : split pattern text ≠ [] := by
  induction text using split_induction pattern with
  | nil => simp
  | occurs c rest h => simp [split_of_occurs h]
  | passes c rest h ih =>
    rw [split_of_not_occurs h]
    cases split pattern rest <;> simp [consHead]

omit [DecidableEq α] in
theorem length_consHead (c : α) {pieces : List (List α)} (h : pieces ≠ []) :
    (consHead c pieces).length = pieces.length := by
  cases pieces with
  | nil => contradiction
  | cons piece pieces => rfl

omit [DecidableEq α] in
theorem intercalate_consHead (sep : List α) (c : α) {pieces : List (List α)} (h : pieces ≠ []) :
    sep.intercalate (consHead c pieces) = c :: sep.intercalate pieces := by
  cases pieces with
  | nil => contradiction
  | cons piece pieces => cases pieces <;> simp [consHead, List.intercalate_cons_cons]

omit [DecidableEq α] in
theorem intercalate_nil_cons (sep : List α) {pieces : List (List α)} (h : pieces ≠ []) :
    sep.intercalate ([] :: pieces) = sep ++ sep.intercalate pieces := by
  cases pieces with
  | nil => contradiction
  | cons piece pieces => simp [List.intercalate_cons_cons]

/-- Joining the pieces with the pattern gives the text back. -/
theorem intercalate_split (pattern text : List α) :
    pattern.intercalate (split pattern text) = text := by
  induction text using split_induction pattern with
  | nil => simp
  | occurs c rest h ih =>
    rw [split_of_occurs h, intercalate_nil_cons _ (split_ne_nil _ _), ih]
    exact (List.prefix_iff_eq_append.mp (List.isPrefixOf_iff_prefix.mp h.2))
  | passes c rest h ih =>
    rw [split_of_not_occurs h, intercalate_consHead _ _ (split_ne_nil _ _), ih]

/-- A text the pattern does not occur in is one piece. -/
theorem split_eq_singleton {pattern text : List α} (h : (split pattern text).length - 1 = 0) :
    split pattern text = [text] := by
  have hne := split_ne_nil pattern text
  match hs : split pattern text, hne with
  | [piece], _ =>
    have := intercalate_split pattern text
    rw [hs, List.intercalate_singleton] at this
    rw [this]
  | _ :: _ :: _, _ => simp [hs] at h

/-- A nonempty pattern leaves one piece exactly when it occurs nowhere in the text. -/
theorem occurrences_eq_zero_iff {pattern text : List α} (hp : pattern ≠ []) :
    occurrences pattern text = 0 ↔ ¬ pattern <:+: text := by
  constructor
  · intro hzero hin
    -- an occurrence anywhere is met by the scan, which then cuts
    induction text using split_induction pattern with
    | nil => exact hp (List.eq_nil_of_infix_nil hin)
    | occurs c rest h =>
      have hne := split_ne_nil pattern ((c :: rest).drop pattern.length)
      have hpos := List.length_pos_iff.mpr hne
      simp only [occurrences, split_of_occurs h, List.length_cons] at hzero
      omega
    | passes c rest h ih =>
      have hne := split_ne_nil pattern rest
      have hnot : ¬ pattern <+: c :: rest := fun hpre =>
        h ⟨hp, List.isPrefixOf_iff_prefix.mpr hpre⟩
      simp only [occurrences, split_of_not_occurs h, length_consHead _ hne] at hzero
      exact ih hzero ((List.infix_cons_iff.mp hin).resolve_left hnot)
  · intro hnot
    -- two pieces or more put the pattern between the first two
    match hs : split pattern text with
    | [] => exact absurd hs (split_ne_nil pattern text)
    | [_] => simp [occurrences, hs]
    | a :: b :: rest =>
      have hjoin := intercalate_split pattern text
      rw [hs, List.intercalate_cons_cons] at hjoin
      exact absurd ⟨a, pattern.intercalate (b :: rest), by rw [← hjoin]⟩ hnot

end Reword.Literal
