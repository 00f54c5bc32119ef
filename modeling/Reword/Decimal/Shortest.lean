import Reword.Decimal.Binary64
/-!
# Shortest decimal digits of a double

The reals that round to a double `m * 2^q` form an interval around it, reaching half way to each
neighbour; its ends belong to it when `m` is even, since a tie rounds to the even neighbour. The
neighbour below is nearer when `m = 2^52` and the exponent is not the least.

The shortest digits of the double are the fewest decimal digits `s` and an exponent `t` with
`s * 10^t` in that interval. Counts of digits are tried from one up. For each count only the two
numbers of that many digits next to the value are tried: the interval holds the value, so if
any number of that count lies in it, one of those two does, and the nearest one is among them.
Of two inside, the nearer is taken, a tie going to the even one.
-/

namespace Reword

namespace Decimal

/-- Digits and the exponent of their last digit: the value `digits * 10^exponent`. -/
structure Digits where
  digits : Nat
  exponent : Int
deriving DecidableEq, Repr

/-- The exponent `e` with `10^e ≤ x < 10^(e+1)` for a positive fraction, found from an estimate
by at most four corrections each way. -/
def decimalExponent (x : Nat × Nat) : Int :=
  let bits : Int := (Nat.log2 x.1 : Int) - Nat.log2 x.2
  let estimate : Int := bits * 30103 / 100000
  let up := (List.range 4).foldl (fun e _ => if le (pow10 (e + 1)) x then e + 1 else e) estimate
  (List.range 4).foldl (fun e _ => if lt x (pow10 e) then e - 1 else e) up

/-- Drops the zeros at the end of the digits. -/
def trimZeros (d : Digits) (fuel : Nat) : Digits :=
  match fuel with
  | 0 => d
  | fuel + 1 =>
    if d.digits ≠ 0 ∧ d.digits % 10 = 0 then trimZeros ⟨d.digits / 10, d.exponent + 1⟩ fuel
    else d

/-- The shortest digits of the double `m * 2^q`, `m > 0`. -/
def shortest (m : Nat) (q : Int) : Digits :=
  let value := mul (m, 1) (pow2 q)
  let unit := pow2 (q - 2)
  let below := if m = Nat.pow 2 52 ∧ q > -1074 then 1 else 2
  let low := mul (4 * m - below, 1) unit
  let high := mul (4 * m + 2, 1) unit
  let inside := fun (x : Nat × Nat) =>
    if m % 2 = 0 then le low x && le x high else lt low x && lt x high
  let e := decimalExponent value
  let attempt := fun (count : Nat) =>
    let t := e - count + 1
    let grid := pow10 t
    let scaled := mul value (grid.2, grid.1)
    let floor := scaled.1 / scaled.2
    let candidates := [floor, floor + 1].filter fun c => inside (mul (c, 1) grid)
    let distance := fun (c : Nat) =>
      let x := mul (c, 1) grid
      if le x value then (value.1 * x.2 - x.1 * value.2, value.2 * x.2)
      else (x.1 * value.2 - value.1 * x.2, value.2 * x.2)
    match candidates with
    | [a, b] =>
      let pick :=
        if lt (distance a) (distance b) then a
        else if lt (distance b) (distance a) then b
        else if a % 2 = 0 then a else b
      some (Digits.mk pick t)
    | [a] => some ⟨a, t⟩
    | _ => none
  let found := ((List.range 17).map (· + 1)).findSome? attempt
  -- seventeen digits always succeed; the value itself stands in for the unreachable rest
  let d := found.getD ⟨m, 0⟩
  trimZeros d 20

end Decimal

end Reword
