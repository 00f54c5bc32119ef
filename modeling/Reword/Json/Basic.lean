import Reword.Text.Units
/-!
# JSON values

A JSON value as a program sees it after reading: numbers are exact decimals
`mantissa * 10 ^ exponent`, and an object is a list of members in property order.

Property order is the order in which an object enumerates its members. A key that is the
canonical decimal text of an array index (`0` to `4294967294`) comes first, in ascending numeric
order. Every other key follows, in the order it was first added. Adding a key that is already
present changes its value in place.

The printer writes compact JSON. It escapes the quote, the backslash, the control characters
below U+0020 and lone surrogates (see `Text.loneCarrier`), and leaves all else as it is.
-/

namespace Reword

/-- A JSON value. -/
inductive Json where
  | null
  | bool (b : Bool)
  | number (mantissa : Int) (exponent : Int)
  | string (s : String)
  | array (items : List Json)
  | object (members : List (String × Json))
deriving Repr, Inhabited

namespace Json

/-- The numeric value of an array-index key, if the key is the canonical decimal text of an
index: no sign, no leading zero, at most `4294967294`. -/
def indexKey? (key : String) : Option Nat :=
  match key.toList with
  | [] => none
  | '0' :: [] => some 0
  | '0' :: _ :: _ => none
  | digits =>
    if digits.all Char.isDigit then
      let n := digits.foldl (fun acc d => acc * 10 + (d.toNat - '0'.toNat)) 0
      if n ≤ 4294967294 then some n else none
    else none

/-- Whether an index key belongs before another key in property order. -/
def indexBefore (n : Nat) (key : String) : Bool :=
  match indexKey? key with
  | some m => n < m
  | none => true

/-- Inserts a new member in property order: an index key before the first key it precedes,
any other key at the end. -/
def insertMember (key : String) (value : Json) : List (String × Json) → List (String × Json)
  | [] => [(key, value)]
  | (k, v) :: rest =>
    match indexKey? key with
    | some n =>
      if indexBefore n k then (key, value) :: (k, v) :: rest
      else (k, v) :: insertMember key value rest
    | none => (k, v) :: insertMember key value rest

/-- Sets a member: a present key keeps its place and takes the new value, a new key is inserted
in property order. -/
def putMember (key : String) (value : Json) (members : List (String × Json)) :
    List (String × Json) :=
  if members.any (fun m => m.1 = key) then
    members.map fun m => if m.1 = key then (key, value) else m
  else insertMember key value members

/-- The value of a member of an object. -/
def field? (j : Json) (key : String) : Option Json :=
  match j with
  | .object members => (members.find? (fun m => m.1 = key)).map Prod.snd
  | _ => none

/-- Escapes one character of a string literal. -/
def escapeChar (c : Char) : List Char :=
  if c = '"' then ['\\', '"']
  else if c = '\\' then ['\\', '\\']
  else if c = '\n' then ['\\', 'n']
  else if c = '\r' then ['\\', 'r']
  else if c = '\t' then ['\\', 't']
  else if c.toNat < 0x20 then
    let hex := Nat.toDigits 16 c.toNat
    ['\\', 'u'] ++ List.replicate (4 - hex.length) '0' ++ hex
  else if Text.isLone c then
    ['\\', 'u'] ++ (Text.charUnits c).flatMap fun u => Nat.toDigits 16 u.toNat
  else [c]

/-- A string literal with its quotes. -/
def quote (s : String) : String :=
  String.ofList ('"' :: s.toList.flatMap escapeChar ++ ['"'])

/-- The text of a number: the mantissa, then `e` and the exponent unless it is zero. -/
def numberText (mantissa exponent : Int) : String :=
  if exponent = 0 then toString mantissa else s!"{mantissa}e{exponent}"

mutual

/-- Compact JSON text of a value. -/
def render : Json → String
  | .null => "null"
  | .bool true => "true"
  | .bool false => "false"
  | .number m e => numberText m e
  | .string s => quote s
  | .array items => "[" ++ renderItems items ++ "]"
  | .object members => "\x7b" ++ renderMembers members ++ "\x7d"

/-- Array items separated by commas. -/
def renderItems : List Json → String
  | [] => ""
  | [j] => render j
  | j :: rest => render j ++ "," ++ renderItems rest

/-- Object members separated by commas. -/
def renderMembers : List (String × Json) → String
  | [] => ""
  | [(k, v)] => quote k ++ ":" ++ render v
  | (k, v) :: rest => quote k ++ ":" ++ render v ++ "," ++ renderMembers rest

end

end Json

end Reword
