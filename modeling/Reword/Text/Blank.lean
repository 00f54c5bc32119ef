/-!
# Blank characters

The characters trimmed from both ends of a text: the Unicode space separators (category Zs),
the controls tab through carriage return, the line and paragraph separators, and the byte order
mark U+FEFF. The zero-width space U+200B, the next-line control U+0085 and the Mongolian vowel
separator U+180E are not blank.

What is proved: every character that core calls whitespace is blank here.
-/

namespace Reword.Text

/-- Whether a character is blank: a space separator, tab through carriage return, a line or
paragraph separator, or the byte order mark. -/
def isBlank (c : Char) : Bool :=
  let n := c.toNat
  (0x09 ≤ n && n ≤ 0x0D) || n == 0x20 || n == 0xA0 || n == 0x1680 ||
    (0x2000 ≤ n && n ≤ 0x200A) || n == 0x2028 || n == 0x2029 || n == 0x202F ||
    n == 0x205F || n == 0x3000 || n == 0xFEFF

/-- The text without blank characters at either end. -/
def trimBlank (s : String) : String :=
  String.ofList ((s.toList.dropWhile isBlank).reverse.dropWhile isBlank).reverse

theorem isBlank_of_isWhitespace {c : Char} (h : c.isWhitespace = true) : isBlank c = true := by
  simp only [Char.isWhitespace, Bool.or_eq_true, decide_eq_true_eq] at h
  rcases h with ((h | h) | h) | h <;> subst h <;> decide

end Reword.Text
