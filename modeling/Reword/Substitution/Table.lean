import Reword.Substitution.Literal
import Reword.Text.Units
/-!
# Substitution tables

A rule maps a nonempty pattern to a replacement. A table is an ordered list of rules with
pairwise distinct patterns. Applying a table runs its rules in order over a text: each rule
replaces every leftmost non-overlapping occurrence of its pattern, the text it puts in is not
scanned again by the same rule, and every later rule sees it.

Texts are matched as UTF-16 code units, so a pattern may meet half of a surrogate pair. The rules
run over the units of the text; a rule that does not occur leaves them as they are, and a text that
no rule occurs in comes back as it was given.

A string holds at most `Text.maxUnits` units, and the engine refuses with a `RangeError` to make a
longer one. Applying a table is total here; `fits` says whether the engine can carry it out, and
callers that run on the engine check it first.

A table is built from entries in order: an entry whose pattern is already present replaces that
rule's replacement where the rule stands, and any other entry is added at the end. An empty
pattern is refused.

What is proved here: building keeps the patterns nonempty and distinct (they are fields of
`Table`), and the patterns of a built table are those of its entries with repeats dropped.
-/

namespace Reword

/-- One substitution: every occurrence of `pattern` becomes `replacement`. -/
structure Rule where
  pattern : String
  replacement : String
deriving DecidableEq, Repr

/-- Why a table cannot be built. -/
inductive TableError where
  /-- An entry has the empty string as pattern. -/
  | emptyPattern
deriving DecidableEq, Repr

namespace TableError

/-- The text that reports the error. -/
def message : TableError → String
  | .emptyPattern => "Substitution pattern must not be empty"

end TableError

namespace Rule

/-- The pieces of a text, as code units, between the leftmost non-overlapping occurrences of
the pattern. -/
def cut (r : Rule) (units : List UInt16) : List (List UInt16) :=
  Literal.split (Text.units r.pattern) units

/-- Sets the replacement of the rule for `pattern` where it stands, or adds a rule at the end. -/
def upsert (pattern replacement : String) : List Rule → List Rule
  | [] => [⟨pattern, replacement⟩]
  | r :: rs =>
    if r.pattern = pattern then ⟨pattern, replacement⟩ :: rs
    else r :: upsert pattern replacement rs

theorem map_pattern_upsert (pattern replacement : String) (rs : List Rule) :
    (upsert pattern replacement rs).map Rule.pattern =
      if pattern ∈ rs.map Rule.pattern then rs.map Rule.pattern
      else rs.map Rule.pattern ++ [pattern] := by
  induction rs with
  | nil => simp [upsert]
  | cons r rs ih =>
    by_cases h : r.pattern = pattern
    · simp [upsert, h]
    · by_cases hm : pattern ∈ rs.map Rule.pattern
      · simp only [List.map_cons, List.mem_cons] at ih ⊢
        simp [upsert, h, ih, hm]
      · have hne : pattern ≠ r.pattern := fun e => h e.symm
        simp only [List.map_cons, List.mem_cons] at ih ⊢
        simp [upsert, h, ih, hm, hne]

theorem mem_upsert {pattern replacement : String} {rs : List Rule} {r : Rule}
    (h : r ∈ upsert pattern replacement rs) : r ∈ rs ∨ r = ⟨pattern, replacement⟩ := by
  induction rs with
  | nil => simpa [upsert] using h
  | cons s ss ih =>
    unfold upsert at h
    split at h
    · simp only [List.mem_cons] at h
      rcases h with h | h
      · exact Or.inr h
      · exact Or.inl (List.mem_cons_of_mem _ h)
    · simp only [List.mem_cons] at h
      rcases h with h | h
      · exact Or.inl (h ▸ List.mem_cons_self)
      · rcases ih h with h' | h'
        · exact Or.inl (List.mem_cons_of_mem _ h')
        · exact Or.inr h'

end Rule

/-- An ordered list of rules with nonempty, pairwise distinct patterns. -/
structure Table where
  rules : List Rule
  pattern_ne : ∀ r ∈ rules, r.pattern ≠ ""
  patterns_nodup : (rules.map Rule.pattern).Nodup

/-- The outcome of applying a table: the new text and, in rule order, each pattern that occurred
with its number of occurrences. -/
structure Applied where
  text : String
  hits : List (String × Nat)
deriving DecidableEq, Repr

namespace Applied

/-- All occurrences replaced, over all rules. -/
def replacements (a : Applied) : Nat :=
  (a.hits.map Prod.snd).foldr (· + ·) 0

end Applied

namespace Table

/-- The table with no rules. -/
def empty : Table :=
  ⟨[], by simp, by simp⟩

/-- The number of rules. -/
def size (t : Table) : Nat :=
  t.rules.length

/-- Sets the replacement for a nonempty pattern: in place if the pattern has a rule, else as a
new last rule. -/
def put (t : Table) (pattern replacement : String) (h : pattern ≠ "") : Table where
  rules := Rule.upsert pattern replacement t.rules
  pattern_ne := by
    intro r hr
    rcases Rule.mem_upsert hr with hr | hr
    · exact t.pattern_ne r hr
    · exact hr ▸ h
  patterns_nodup := by
    rw [Rule.map_pattern_upsert]
    split
    · exact t.patterns_nodup
    · next hm => exact List.nodup_append.mpr ⟨t.patterns_nodup, by simp, by simp_all⟩

/-- Adds entries in order to a table; the first entry with an empty pattern stops it. -/
def putAll (t : Table) : List (String × String) → Except TableError Table
  | [] => .ok t
  | (pattern, replacement) :: rest =>
    if h : pattern = "" then .error .emptyPattern
    else putAll (t.put pattern replacement h) rest

/-- The table of the entries: the first entry of a pattern fixes its place, the last its
replacement. -/
def ofEntries (entries : List (String × String)) : Except TableError Table :=
  empty.putAll entries

/-- The table of a list of rules, read as entries. -/
def ofRules (rules : List Rule) : Except TableError Table :=
  ofEntries (rules.map fun r => (r.pattern, r.replacement))

/-- Runs rules in order over code units: each rule cuts the units it meets and joins the pieces
with its replacement, unless its pattern does not occur. Gives the units at the end and, in rule
order, each pattern that occurred with its number of occurrences. -/
def runRules : List Rule → List UInt16 → List UInt16 × List (String × Nat)
  | [], units => (units, [])
  | r :: rs, units =>
    let pieces := r.cut units
    let n := pieces.length - 1
    if n = 0 then runRules rs units
    else
      let rest := runRules rs ((Text.units r.replacement).intercalate pieces)
      (rest.1, (r.pattern, n) :: rest.2)

/-- Whether every text the rules join on their way fits in a string: the engine refuses to join
pieces into more than `Text.maxUnits` units. Each join is measured before it is made, so a run
that does not fit is found without building the text that is too long. -/
def fitsRules : List Rule → List UInt16 → Bool
  | [], _ => true
  | r :: rs, units =>
    let pieces := r.cut units
    let n := pieces.length - 1
    if n = 0 then fitsRules rs units
    else
      decide ((pieces.map List.length).foldr (· + ·) 0 + n * (Text.units r.replacement).length ≤
          Text.maxUnits) &&
        fitsRules rs ((Text.units r.replacement).intercalate pieces)

/-- Whether applying the table to a text makes no text longer than a string may be. -/
def fits (t : Table) (text : String) : Bool :=
  fitsRules t.rules (Text.units text)

/-- The text of the engine's refusal to make a string longer than `Text.maxUnits` units. -/
def tooLongMessage : String := "Invalid string length"

/-- Applies the rules in order and counts the occurrences each one replaced. -/
def applyWithStats (t : Table) (text : String) : Applied :=
  let (units, hits) := runRules t.rules (Text.units text)
  ⟨if hits.isEmpty then text else Text.ofUnits units, hits⟩

/-- Applies the rules in order. -/
def apply (t : Table) (text : String) : String :=
  (t.applyWithStats text).text

end Table

end Reword
