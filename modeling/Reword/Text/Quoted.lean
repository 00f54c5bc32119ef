import Reword.Text.Units
/-!
# Quoted text

A text is shown quoted when a message names a value it refuses. The quote is a single quote
unless the text holds one; then a double quote unless the text holds that too; then a backquote
unless the text holds one or `${`; and otherwise a single quote again. Inside, the backslash, the
control characters below U+0020, the characters U+007F to U+009F, and the single quote when it is
the quote are escaped: `\b`, `\t`, `\n`, `\f` and `\r` by name, the others as `\x` with two
upper-case hexadecimal digits. A surrogate pair stays as it is; a lone surrogate is written `\u`
with its four lower-case hexadecimal digits.

A text longer than `breakWidth` units is cut after each line feed, and the quoted lines are
joined by ` +`, a line feed and two spaces; each line takes its own quote.
-/

namespace Reword.Text

/-- Texts longer than this many units are shown line by line. -/
def breakWidth : Nat := 124

/-- The single quote. -/
def singleQuote : Char := Char.ofNat 39

/-- The backquote. -/
def backquote : Char := Char.ofNat 96

/-- The `k` hexadecimal digits of `n`, most significant first; `upper` picks the letter case. -/
def hexDigits (upper : Bool) : Nat → Nat → List Char
  | 0, _ => []
  | k + 1, n =>
    let d := n % 16
    hexDigits upper k (n / 16) ++
      [if d < 10 then Char.ofNat (48 + d) else Char.ofNat ((if upper then 55 else 87) + d)]

/-- The escape of a unit that is shown escaped whatever the quote, if it is one. -/
def unitEscape (u : UInt16) : Option String :=
  let n := u.toNat
  if n = 8 then some "\\b"
  else if n = 9 then some "\\t"
  else if n = 10 then some "\\n"
  else if n = 12 then some "\\f"
  else if n = 13 then some "\\r"
  else if n = 92 then some "\\\\"
  else if n < 32 ∨ (127 ≤ n ∧ n < 160) then some ("\\x" ++ String.ofList (hexDigits true 2 n))
  else none

/-- The inside of a quoted text, unit by unit; `escapeSingle` says the single quote is the quote. -/
def quotedUnits (escapeSingle : Bool) : List UInt16 → String
  | [] => ""
  | [u] => quotedUnit u
  | u :: w :: more =>
    if isHigh u && isLow w then ofUnits [u, w] ++ quotedUnits escapeSingle more
    else quotedUnit u ++ quotedUnits escapeSingle (w :: more)
where
  /-- One unit that is not half of a pair. -/
  quotedUnit (u : UInt16) : String :=
    if isSurrogate u then "\\u" ++ String.ofList (hexDigits false 4 u.toNat)
    else if escapeSingle && u.toNat = 39 then "\\" ++ String.singleton singleQuote
    else (unitEscape u).getD (ofUnits [u])

/-- The quote a text is shown in. -/
def quoteFor (s : String) : Char :=
  if !s.contains singleQuote then singleQuote
  else if !s.contains '"' then '"'
  else if !s.contains backquote && (s.splitOn "$\x7b").length = 1 then backquote
  else singleQuote

/-- One line of text in its quotes. -/
def quotedLine (s : String) : String :=
  let q := quoteFor s
  String.singleton q ++ quotedUnits (q = singleQuote) (units s) ++ String.singleton q

/-- The lines of a text, each but the last with the line feed that ends it. -/
def linesKeepingBreaks (s : String) : List String :=
  match (s.splitOn "\n").reverse with
  | [] => []
  | last :: earlier =>
    (earlier.reverse.map (· ++ "\n")) ++ (if last.isEmpty then [] else [last])

/-- A text as it is shown quoted. -/
def quoted (s : String) : String :=
  if unitLength s > breakWidth then
    " +\n  ".intercalate ((linesKeepingBreaks s).map quotedLine)
  else quotedLine s

end Reword.Text
