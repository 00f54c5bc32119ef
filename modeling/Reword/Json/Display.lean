import Reword.Json.Basic
import Reword.Decimal.Shortest
/-!
# The text of a value

The text a JSON value shows when it is used as a message: `null`, `true` and `false` as written,
a string as itself, an object as `[object Object]`, and an array as the texts of its items joined
by commas, a `null` item showing as nothing. An object with its own `toString` member has no
text, and neither has an array that holds one at any depth.

A number is first rounded to double precision, then shown by its shortest digits `s`, `k` of
them, whose value is `s * 10^(n-k)`: written out with zeros when `k ≤ n ≤ 21`, with a point
inside when `0 < n ≤ 21`, as `0.` and `-n` zeros before the digits when `-6 < n ≤ 0`, and
otherwise as the digits with a point after the first, `e`, the sign and the exponent `n - 1`.
Zero shows as `0` whatever its sign, and a number beyond the largest double as `Infinity`.
-/

namespace Reword

namespace Json

/-- The digits of a natural number. -/
def natText (n : Nat) : String := toString n

/-- A run of zeros. -/
def zeros (n : Nat) : String :=
  String.ofList (List.replicate n '0')

/-- The text of shortest digits. -/
def digitsText (d : Decimal.Digits) : String :=
  let s := toString d.digits
  let k := s.length
  let n : Int := k + d.exponent
  if k ≤ n ∧ n ≤ 21 then s ++ zeros (n - k).toNat
  else if 0 < n ∧ n ≤ 21 then (s.take n.toNat).toString ++ "." ++ (s.drop n.toNat).toString
  else if -6 < n ∧ n ≤ 0 then "0." ++ zeros (-n).toNat ++ s
  else
    let e := n - 1
    let exp := (if e ≥ 0 then "+" else "-") ++ toString e.natAbs
    if k = 1 then s ++ "e" ++ exp
    else (s.take 1).toString ++ "." ++ (s.drop 1).toString ++ "e" ++ exp

/-- The text of the number `mantissa * 10^exponent`. Exponents far outside the range of
doubles are settled before any arithmetic. -/
def numberDisplay (mantissa exponent : Int) : String :=
  let size : Int := (toString mantissa.natAbs).length + exponent
  let rounded :=
    if mantissa = 0 ∨ size < -330 then Decimal.Binary64.zero
    else if size > 310 then .infinite
    else Decimal.nearest (Decimal.mul (mantissa.natAbs, 1) (Decimal.pow10 exponent))
  let sign := if mantissa < 0 then "-" else ""
  match rounded with
  | .zero => "0"
  | .infinite => sign ++ "Infinity"
  | .finite m q => sign ++ digitsText (Decimal.shortest m q)

/-- The message of a value that has no text. -/
def noTextMessage : String := "Cannot convert object to primitive value"

/-- Whether an object carries its own `toString` member. Such a member is data, not something
to call, and the value an object gives otherwise is the object itself, so it has no text. -/
def ownsToString (members : List (String × Json)) : Bool :=
  members.any fun m => m.1 = "toString"

mutual

/-- The text a value shows as a message; none when an object in it has no text. -/
def display : Json → Option String
  | .null => some "null"
  | .bool true => some "true"
  | .bool false => some "false"
  | .number m e => some (numberDisplay m e)
  | .string s => some s
  | .array items => displayItems items
  | .object members => if ownsToString members then none else some "[object Object]"

/-- Array items joined by commas; a `null` item shows as nothing. -/
def displayItems : List Json → Option String
  | [] => some ""
  | [j] => displayItem j
  | j :: rest =>
    match displayItem j, displayItems rest with
    | some a, some b => some (a ++ "," ++ b)
    | _, _ => none

/-- One array item; a `null` item shows as nothing. -/
def displayItem : Json → Option String
  | .null => some ""
  | j => display j

end

end Json

end Reword
