import Reword.Text.Units
/-!
# UTF-8

Encoding a character gives one to four bytes. Decoding reads one well-formed sequence at a time:
the lead byte fixes the length and the range of the second byte (which rules out overlong forms,
surrogates and values above U+10FFFF), and every later byte is a continuation byte.

Where the bytes are not well formed, the longest start of a well-formed sequence is one fault,
and a byte that cannot start any sequence is one fault by itself. Strict decoding refuses a text
with any fault; lenient decoding puts U+FFFD in place of each. A byte order mark is an ordinary
character in both.

Text is written out as the bytes of the scalar values of its code units, with U+FFFD for each
lone surrogate (`encodeText`), and decoded bytes are taken in through their code units.
-/

namespace Reword.Text

namespace Utf8

/-- The bytes of one character. -/
def encodeChar (c : Char) : List UInt8 :=
  let n := c.toNat
  if n < 0x80 then [n.toUInt8]
  else if n < 0x800 then [(0xC0 + n / 0x40).toUInt8, (0x80 + n % 0x40).toUInt8]
  else if n < 0x10000 then
    [(0xE0 + n / 0x1000).toUInt8, (0x80 + n / 0x40 % 0x40).toUInt8, (0x80 + n % 0x40).toUInt8]
  else
    [(0xF0 + n / 0x40000).toUInt8, (0x80 + n / 0x1000 % 0x40).toUInt8,
      (0x80 + n / 0x40 % 0x40).toUInt8, (0x80 + n % 0x40).toUInt8]

/-- The bytes of a sequence of Unicode scalar values. -/
def encode (cs : List Char) : List UInt8 :=
  cs.flatMap encodeChar

/-- The bytes of a text as it is written out: a lone surrogate becomes U+FFFD. -/
def encodeText (s : String) : List UInt8 :=
  encode (scalarsOfUnits (units s))

/-- Whether a byte lies in a range. -/
def within (b : UInt8) (lo hi : Nat) : Bool :=
  lo ≤ b.toNat && b.toNat ≤ hi

/-- The payload of a continuation byte. -/
def payload (b : UInt8) : Nat :=
  b.toNat % 0x40

/-- Reads continuation bytes after a lead: the value so far, the range of the next byte, how
many continuation bytes follow it. Gives the character, or a fault, and how many bytes past the
first were used. -/
def continueWith (value : Nat) (lo hi : Nat) : Nat → List UInt8 → Nat → Option Char × Nat
  | _, [], used => (none, used)
  | 0, b :: _, used =>
    if within b lo hi then (some (Char.ofNat (value * 0x40 + payload b)), used + 1)
    else (none, used)
  | more + 1, b :: rest, used =>
    if within b lo hi then continueWith (value * 0x40 + payload b) 0x80 0xBF more rest (used + 1)
    else (none, used)

/-- Reads one sequence: the character or a fault, and how many bytes past the first it used. -/
def step (b : UInt8) (rest : List UInt8) : Option Char × Nat :=
  let n := b.toNat
  if n < 0x80 then (some (Char.ofNat n), 0)
  else if 0xC2 ≤ n ∧ n ≤ 0xDF then continueWith (n % 0x20) 0x80 0xBF 0 rest 0
  else if n = 0xE0 then continueWith (n % 0x10) 0xA0 0xBF 1 rest 0
  else if n = 0xED then continueWith (n % 0x10) 0x80 0x9F 1 rest 0
  else if 0xE1 ≤ n ∧ n ≤ 0xEF then continueWith (n % 0x10) 0x80 0xBF 1 rest 0
  else if n = 0xF0 then continueWith (n % 0x08) 0x90 0xBF 2 rest 0
  else if n = 0xF4 then continueWith (n % 0x08) 0x80 0x8F 2 rest 0
  else if 0xF1 ≤ n ∧ n ≤ 0xF3 then continueWith (n % 0x08) 0x80 0xBF 2 rest 0
  else (none, 0)

/-- The characters of a byte sequence, `none` standing for each fault. -/
def decodeParts : List UInt8 → List (Option Char)
  | [] => []
  | b :: rest =>
    let (c, used) := step b rest
    c :: decodeParts (rest.drop used)
termination_by bytes => bytes.length
decreasing_by simp only [List.length_drop, List.length_cons]; omega

/-- The text of well-formed UTF-8, or `none` if there is a fault. -/
def decode? (bytes : List UInt8) : Option String :=
  (decodeParts bytes).mapM id |>.map ofScalars

/-- The text of a byte sequence with U+FFFD for each fault. -/
def decodeLossy (bytes : List UInt8) : String :=
  ofScalars ((decodeParts bytes).map fun c => c.getD '�')

end Utf8

end Reword.Text
