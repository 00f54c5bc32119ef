/-!
# Rounding to double precision

A double is `m * 2^q` with `2^52 ≤ m < 2^53` and `-1074 ≤ q ≤ 971`, or below that range
`m < 2^52` with `q = -1074`. A positive rational rounds to the nearest double, a tie to the one
with an even `m`; beyond the largest double it rounds to infinity, and below half the smallest
to zero.

Fractions here are pairs of natural numbers `(numerator, denominator)` compared by
cross-multiplication, so all of this is exact.
-/

namespace Reword

namespace Decimal

/-- A nonnegative number rounded to double precision. -/
inductive Binary64 where
  | zero
  | finite (mant : Nat) (exp : Int)
  | infinite
deriving DecidableEq, Repr

/-- `2^e` as a fraction. -/
def pow2 (e : Int) : Nat × Nat :=
  if e ≥ 0 then (Nat.pow 2 e.toNat, 1) else (1, Nat.pow 2 (-e).toNat)

/-- `10^e` as a fraction. -/
def pow10 (e : Int) : Nat × Nat :=
  if e ≥ 0 then (Nat.pow 10 e.toNat, 1) else (1, Nat.pow 10 (-e).toNat)

/-- The product of two fractions. -/
def mul (a b : Nat × Nat) : Nat × Nat :=
  (a.1 * b.1, a.2 * b.2)

/-- Whether one fraction is below another. -/
def lt (a b : Nat × Nat) : Bool :=
  a.1 * b.2 < b.1 * a.2

/-- Whether one fraction is at most another. -/
def le (a b : Nat × Nat) : Bool :=
  a.1 * b.2 ≤ b.1 * a.2

/-- The quotient of two natural numbers rounded to the nearest, a tie to even. -/
def roundHalfEven (a b : Nat) : Nat :=
  let q := a / b
  let r := a % b
  if 2 * r > b then q + 1 else if 2 * r < b then q else q + q % 2

/-- The exponent `k` with `2^k ≤ x < 2^(k+1)` for a positive fraction. -/
def binaryExponent (x : Nat × Nat) : Int :=
  let k : Int := (Nat.log2 x.1 : Int) - Nat.log2 x.2
  if lt x (pow2 k) then k - 1 else k

/-- The double nearest a positive fraction. -/
def nearest (x : Nat × Nat) : Binary64 :=
  if x.1 = 0 then .zero
  else
    let q := max (binaryExponent x - 52) (-1074)
    let scaled := mul x (pow2 (-q))
    let m := roundHalfEven scaled.1 scaled.2
    let (m, q) := if m = Nat.pow 2 53 then (Nat.pow 2 52, q + 1) else (m, q)
    if m = 0 then .zero
    else if q > 971 then .infinite
    else .finite m q

end Decimal

end Reword
