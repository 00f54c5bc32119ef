import Reword.Json.Basic
import Reword.Text.Units
/-!
# Reading JSON text

The strict JSON grammar: blanks are space, tab, line feed and carriage return; a number is an
optional minus, an integer part without leading zeros, an optional fraction and an optional
exponent; a string escapes with a backslash and holds no control character below U+0020. One
value fills the whole text, blanks around it apart.

Escapes are read as UTF-16 code units, so an escaped surrogate pair reads as the one character
it encodes, and an escaped surrogate that stands alone is carried alone (`Text.loneCarrier`). Members of an object are kept in property order, and a repeated key keeps
its first place and its last value (see `Json.putMember`).

Reading stops at the first character that does not fit, with the reason the grammar gives at
that place: a value that cannot start there, a missing separator, or a flaw inside a string or
a number. The description of a stop names the place by its offset in UTF-16 code units, with
line and column. A character that cannot start a value is shown by its first code unit, with
the text around it, ten units each way, or with the whole text when that is shorter than a
character with ten units on each side.

Nesting is read by descent with a budget of steps taken from the length of the text: every
call consumes a character or is followed by one that does, so the budget is never spent on a
text of that length.
-/

namespace Reword

/-- Why reading JSON text stops. -/
inductive JsonFault.Reason where
  /-- The character there, or the end, cannot stand there. -/
  | unexpected
  /-- An object has neither a key nor its closing brace. -/
  | expectedNameOrBrace
  /-- An array item is followed by neither a comma nor the closing bracket. -/
  | expectedCommaOrBracket
  /-- A member is followed by neither a comma nor the closing brace. -/
  | expectedCommaOrBrace
  /-- A key is not followed by a colon. -/
  | expectedColon
  /-- A comma in an object is not followed by a key. -/
  | expectedQuotedName
  /-- A string runs to the end of the text. -/
  | unterminatedString
  /-- A string holds a control character. -/
  | badControlCharacter
  /-- A backslash is followed by a letter that escapes nothing. -/
  | badEscape
  /-- A `\u` escape is not followed by four hexadecimal digits. -/
  | badUnicodeEscape
  /-- A minus sign is not followed by a digit. -/
  | noNumberAfterMinus
  /-- A decimal point is not followed by a digit. -/
  | unterminatedFraction
  /-- An exponent mark is not followed by a digit. -/
  | missingExponent
  /-- Something other than blanks follows the value. -/
  | trailingText
deriving DecidableEq, Repr

/-- Where a text stops being JSON and why: the offset in UTF-16 code units of the character
that does not fit, or of the end of the text, and that character. -/
structure JsonFault where
  reason : JsonFault.Reason
  offset : Nat
  found : Option Char
deriving DecidableEq, Repr

namespace JsonFault

/-- The text of a reason, up to the place it names. -/
def Reason.text : Reason → String
  | .unexpected => "Unexpected token in JSON"
  | .expectedNameOrBrace => "Expected property name or '\x7d' in JSON"
  | .expectedCommaOrBracket => "Expected ',' or ']' after array element in JSON"
  | .expectedCommaOrBrace => "Expected ',' or '\x7d' after property value in JSON"
  | .expectedColon => "Expected ':' after property name in JSON"
  | .expectedQuotedName => "Expected double-quoted property name in JSON"
  | .unterminatedString => "Unterminated string in JSON"
  | .badControlCharacter => "Bad control character in string literal in JSON"
  | .badEscape => "Bad escaped character in JSON"
  | .badUnicodeEscape => "Bad Unicode escape in JSON"
  | .noNumberAfterMinus => "No number after minus sign in JSON"
  | .unterminatedFraction => "Unterminated fractional number in JSON"
  | .missingExponent => "Exponent part is missing a number in JSON"
  | .trailingText => "Unexpected non-whitespace character after JSON"

/-- Line and column of a unit offset: carriage return, line feed, or the two together end a
line; both count from one. -/
def lineColumn (us : List UInt16) : Nat → Nat × Nat :=
  let rec go (line col : Nat) : List UInt16 → Nat → Nat × Nat
    | _, 0 => (line, col)
    | [], _ => (line, col)
    | 13 :: 10 :: rest, n + 2 => go (line + 1) 1 rest n
    | u :: rest, n + 1 => if u = 10 ∨ u = 13 then go (line + 1) 1 rest n else go line (col + 1) rest n
  go 1 1 us

/-- The texts that, given whole, are named rather than shown around a character. -/
def namedTexts : List String := ["[object Object]", "undefined", "Infinity", "NaN"]

/-- How many units of context are shown on each side of a character. -/
def contextUnits : Nat := 10

/-- A character that cannot stand where it stands, with the text around it. -/
def unexpectedToken (source : String) (offset : Nat) (c : Char) : String :=
  let us := Text.units source
  let n := us.length
  let slice (a b : Nat) : String := Text.ofUnits ((us.drop a).take (b - a))
  let shown := "Unexpected token '" ++ Text.ofUnits ((Text.charUnits c).take 1) ++ "', "
  if n < 2 * contextUnits + 1 then shown ++ "\"" ++ source ++ "\" is not valid JSON"
  else if offset < contextUnits then
    shown ++ "\"" ++ slice 0 (offset + contextUnits) ++ "\"... is not valid JSON"
  else if offset < n - contextUnits then
    shown ++ "...\"" ++ slice (offset - contextUnits) (offset + contextUnits) ++
      "\"... is not valid JSON"
  else shown ++ "...\"" ++ slice (offset - contextUnits) n ++ "\" is not valid JSON"

/-- A plain description of a fault in the text `source`. -/
def describe (source : String) (f : JsonFault) : String :=
  let (line, col) := lineColumn (Text.units source) f.offset
  let place := " at position " ++ toString f.offset ++ " (line " ++ toString line ++
    " column " ++ toString col ++ ")"
  match f.reason, f.found with
  | .unexpected, none => "Unexpected end of JSON input"
  | .unexpected, some c =>
    if c = '"' then "Unexpected string in JSON" ++ place
    else if c.isDigit ∨ c = '-' then "Unexpected number in JSON" ++ place
    else if source ∈ namedTexts then "\"" ++ source ++ "\" is not valid JSON"
    else unexpectedToken source f.offset c
  | r, _ => r.text ++ place

end JsonFault

namespace Json.Reader

/-- Where reading stops: the reason and the input from the place it stops. -/
abbrev Stop := JsonFault.Reason × List Char

/-- Whether a character is a blank between tokens. -/
def isBlank (c : Char) : Bool :=
  c = ' ' || c = '\t' || c = '\n' || c = '\r'

/-- Drops leading blanks. -/
def skipBlank (cs : List Char) : List Char :=
  cs.dropWhile isBlank

/-- The value of a hexadecimal digit. -/
def hexValue (c : Char) : Option Nat :=
  if '0' ≤ c ∧ c ≤ '9' then some (c.toNat - '0'.toNat)
  else if 'a' ≤ c ∧ c ≤ 'f' then some (c.toNat - 'a'.toNat + 10)
  else if 'A' ≤ c ∧ c ≤ 'F' then some (c.toNat - 'A'.toNat + 10)
  else none

/-- Reads `n` hexadecimal digits onto `acc`; stops at the first character that is not one. -/
def readHex (acc : Nat) : Nat → List Char → Except Stop (Nat × List Char)
  | 0, cs => .ok (acc, cs)
  | n + 1, c :: rest =>
    match hexValue c with
    | some d => readHex (acc * 16 + d) n rest
    | none => .error (.badUnicodeEscape, c :: rest)
  | _ + 1, [] => .error (.badUnicodeEscape, [])

/-- Reading hexadecimal digits never lengthens the input. -/
theorem readHex_length {acc n v : Nat} {cs after : List Char}
    (h : readHex acc n cs = .ok (v, after)) : after.length ≤ cs.length := by
  induction n generalizing acc cs with
  | zero =>
    simp only [readHex, Except.ok.injEq, Prod.mk.injEq] at h
    obtain ⟨-, rfl⟩ := h
    exact Nat.le_refl _
  | succ n ih =>
    cases cs with
    | nil => simp [readHex] at h
    | cons c rest =>
      simp only [readHex] at h
      split at h
      · have := ih h
        simp only [List.length_cons]
        omega
      · simp at h

/-- The character of one escape letter other than `u`. -/
def simpleEscape (c : Char) : Option Char :=
  match c with
  | '"' => some '"'
  | '\\' => some '\\'
  | '/' => some '/'
  | 'b' => some '\x08'
  | 'f' => some '\x0c'
  | 'n' => some '\n'
  | 'r' => some '\r'
  | 't' => some '\t'
  | _ => none

set_option linter.unusedVariables false in
/-- Reads the rest of a string literal after its opening quote; `acc` holds the code units read
so far, last first. -/
def readString : List Char → List UInt16 → Except Stop (String × List Char)
  | [], _ => .error (.unterminatedString, [])
  | '"' :: rest, acc => .ok (Text.ofUnits acc.reverse, rest)
  | '\\' :: 'u' :: rest, acc =>
    match h : readHex 0 4 rest with
    | .ok (n, after) => readString after (n.toUInt16 :: acc)
    | .error e => .error e
  | '\\' :: c :: rest, acc =>
    match simpleEscape c with
    | some e => readString rest ((Text.charUnits e).reverse ++ acc)
    | none => .error (if c.toNat > 0xFF then .unexpected else .badEscape, c :: rest)
  | ['\\'], _ => .error (.unexpected, [])
  | c :: rest, acc =>
    if c.toNat < 0x20 then .error (.badControlCharacter, c :: rest)
    else readString rest ((Text.charUnits c).reverse ++ acc)
termination_by cs => cs.length
decreasing_by
  all_goals simp only [List.length_cons]
  all_goals first
    | omega
    | exact Nat.lt_of_le_of_lt (readHex_length h) (by omega)

/-- The decimal digits at the front, and what follows. -/
def digits (cs : List Char) : List Char × List Char :=
  (cs.takeWhile Char.isDigit, cs.dropWhile Char.isDigit)

/-- The value of a run of decimal digits. -/
def digitsValue (ds : List Char) : Nat :=
  ds.foldl (fun acc d => acc * 10 + (d.toNat - '0'.toNat)) 0

/-- Reads the exponent part of a number, if there is one. -/
def readExponent : List Char → Except Stop (Int × List Char)
  | 'e' :: rest | 'E' :: rest =>
    let (sign, body) : Int × List Char :=
      match rest with
      | '+' :: b => (1, b)
      | '-' :: b => (-1, b)
      | b => (1, b)
    let (ds, after) := digits body
    if ds.isEmpty then .error (.missingExponent, body) else .ok (sign * digitsValue ds, after)
  | cs => .ok (0, cs)

/-- Reads a number without its sign: the integer part has no leading zero, so a digit after a
leading zero is a number where none may stand. -/
def readUnsigned (cs : List Char) : Except Stop ((Nat × Int) × List Char) := do
  let (intPart, rest) ←
    match cs with
    | '0' :: rest =>
      match rest with
      | d :: _ => if d.isDigit then throw (.unexpected, rest) else pure (['0'], rest)
      | [] => pure (['0'], rest)
    | _ =>
      let (ds, after) := digits cs
      if ds.isEmpty then throw (.noNumberAfterMinus, cs) else pure (ds, after)
  let (fracPart, rest) ←
    match rest with
    | '.' :: more =>
      let (ds, after) := digits more
      if ds.isEmpty then throw (.unterminatedFraction, more) else pure (ds, after)
    | _ => pure ([], rest)
  let (exp, rest) ← readExponent rest
  pure ((digitsValue (intPart ++ fracPart), exp - fracPart.length), rest)

/-- Reads a number. -/
def readNumber : List Char → Except Stop (Json × List Char)
  | '-' :: rest => do
    let ((m, e), after) ← readUnsigned rest
    pure (.number (-(m : Int)) e, after)
  | cs => do
    let ((m, e), after) ← readUnsigned cs
    pure (.number m e, after)

/-- Reads the rest of a literal word after its first letter: each letter must follow, and the
first that does not stops reading there. -/
def readWord (value : Json) : List Char → List Char → Except Stop (Json × List Char)
  | [], rest => .ok (value, rest)
  | _ :: _, [] => .error (.unexpected, [])
  | w :: ws, c :: rest => if w = c then readWord value ws rest else .error (.unexpected, c :: rest)

mutual

/-- Reads one value after optional blanks. -/
def readValue : Nat → List Char → Except Stop (Json × List Char)
  | 0, cs => .error (.unexpected, cs)
  | fuel + 1, cs =>
    match skipBlank cs with
    | '\x7b' :: rest => readObject fuel (skipBlank rest)
    | '[' :: rest => readArray fuel (skipBlank rest)
    | '"' :: rest => (readString rest []).map fun r => (.string r.1, r.2)
    | 't' :: rest => readWord (.bool true) ['r', 'u', 'e'] rest
    | 'f' :: rest => readWord (.bool false) ['a', 'l', 's', 'e'] rest
    | 'n' :: rest => readWord .null ['u', 'l', 'l'] rest
    | other@(c :: _) => if c = '-' ∨ c.isDigit then readNumber other else .error (.unexpected, other)
    | [] => .error (.unexpected, [])

/-- Reads an array after its opening bracket and blanks. -/
def readArray : Nat → List Char → Except Stop (Json × List Char)
  | 0, cs => .error (.unexpected, cs)
  | _ + 1, ']' :: rest => .ok (.array [], rest)
  | fuel + 1, cs => readItems fuel cs []

/-- Reads array items, each followed by a comma or the closing bracket. -/
def readItems : Nat → List Char → List Json → Except Stop (Json × List Char)
  | 0, cs, _ => .error (.unexpected, cs)
  | fuel + 1, cs, acc =>
    match readValue fuel cs with
    | .error e => .error e
    | .ok (v, rest) =>
      match skipBlank rest with
      | ',' :: more => readItems fuel more (v :: acc)
      | ']' :: more => .ok (.array (v :: acc).reverse, more)
      | other => .error (.expectedCommaOrBracket, other)

/-- Reads an object after its opening brace and blanks. -/
def readObject : Nat → List Char → Except Stop (Json × List Char)
  | 0, cs => .error (.unexpected, cs)
  | _ + 1, '\x7d' :: rest => .ok (.object [], rest)
  | fuel + 1, cs => readMembers fuel .expectedNameOrBrace cs []

/-- Reads object members, each followed by a comma or the closing brace; `missing` is the
reason to give when no key starts here. -/
def readMembers : Nat → JsonFault.Reason → List Char → List (String × Json) →
    Except Stop (Json × List Char)
  | 0, _, cs, _ => .error (.unexpected, cs)
  | fuel + 1, missing, cs, members =>
    match skipBlank cs with
    | '"' :: rest =>
      match readString rest [] with
      | .error e => .error e
      | .ok (key, afterKey) =>
        match skipBlank afterKey with
        | ':' :: afterColon =>
          match readValue fuel afterColon with
          | .error e => .error e
          | .ok (v, rest) =>
            let members := putMember key v members
            match skipBlank rest with
            | ',' :: more => readMembers fuel .expectedQuotedName more members
            | '\x7d' :: more => .ok (.object members, more)
            | other => .error (.expectedCommaOrBrace, other)
        | other => .error (.expectedColon, other)
    | other => .error (missing, other)

end

end Json.Reader

namespace Json

/-- Reads a JSON text that holds exactly one value. -/
def parse (text : String) : Except JsonFault Json :=
  let cs := text.toList
  let total := Text.unitLength text
  let fault (stop : Reader.Stop) : JsonFault :=
    ⟨stop.1, total - (stop.2.flatMap Text.charUnits).length, stop.2.head?⟩
  match Reader.readValue (4 * cs.length + 4) cs with
  | .error stop => .error (fault stop)
  | .ok (v, rest) =>
    match Reader.skipBlank rest with
    | [] => .ok v
    | other => .error (fault (.trailingText, other))

end Json

end Reword
