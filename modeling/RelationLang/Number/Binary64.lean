import RelationLang.Number.Decimal

/-!
# Quotients as 64-bit binary numbers

A quotient of two natural numbers is rounded to a significand of 53 bits, halves to the even
neighbour. The rounded number is written as the shortest decimal from which the same rounding
gets it back.

**Algorithm.**  All arithmetic is exact. For more and more places the neighbours of the number on the
grid of decimals with so many places are tried; the first grid that has a neighbour inside the
rounding interval gives the answer, and of two neighbours inside it the nearer one.
-/

namespace RelationLang
namespace Number

/-- The number `significand * 2 ^ exponent`. Apart from zero, the significand has 53 bits. -/
structure Binary64 where
  significand : Nat
  exponent : Int
deriving DecidableEq, Repr, Inhabited

namespace Binary64

def zero : Binary64 := ⟨0, 0⟩

def precision : Nat := 53

def twoTo (exponent : Nat) : Nat := Nat.pow 2 exponent

/-- The whole number nearest to `n / d`, halves to the even neighbour. -/
def roundDiv (n d : Nat) : Nat :=
  let quotient := n / d
  let twice := 2 * (n % d)
  if twice < d ∨ (twice = d ∧ quotient % 2 = 0) then quotient else quotient + 1

/-- The numerator and denominator of `n / d` scaled by `2 ^ (-exponent)`. -/
def scaled (n d : Nat) (exponent : Int) : Nat × Nat :=
  (n * twoTo (-exponent).toNat, d * twoTo exponent.toNat)

/-- The largest power of two whose multiples resolve `n / d` to 53 bits, for positive `n` and
`d`. -/
def exponentOf (n d : Nat) : Int :=
  let guess : Int := n.log2 - d.log2 - precision
  let (numerator, denominator) := scaled n d guess
  if numerator / denominator < twoTo precision then guess else guess + 1

/-- The number nearest to `n / d`, for positive `d`. -/
def ofRatio (n d : Nat) : Binary64 :=
  if n = 0 then zero
  else
    let exponent := exponentOf n d
    let (numerator, denominator) := scaled n d exponent
    let significand := roundDiv numerator denominator
    if significand = twoTo precision then ⟨twoTo (precision - 1), exponent + 1⟩
    else ⟨significand, exponent⟩

/-- The interchange encoding: sign, eleven bits of biased exponent, 52 bits of fraction. -/
def bits (x : Binary64) : Nat :=
  if x.significand = 0 then 0
  else (x.exponent + 1075).toNat * twoTo 52 + (x.significand - twoTo 52)

/-- The whole number nearest to `n`, which is `n` itself unless it is too large for the significand. -/
def nearest (n : Nat) : Nat :=
  let x := ofRatio n 1
  x.significand * twoTo x.exponent.toNat / twoTo (-x.exponent).toNat

/-- The quotient of two counts, which are rounded before they are divided. -/
def quotient (n d : Nat) : Binary64 := ofRatio (nearest n) (nearest d)

/-- Whether the decimal `candidate / 10 ^ places` rounds to the number. The interval reaches half
way to each neighbour; below a power of two the neighbour is half as far away; the ends belong to
it when the significand is even. -/
def contains (x : Binary64) (places : Int) (candidate : Nat) : Bool :=
  let up := twoTo x.exponent.toNat * Decimal.tenTo places.toNat
  let value := candidate * 4 * twoTo (-x.exponent).toNat * Decimal.tenTo (-places).toNat
  let low := (4 * x.significand - if x.significand = twoTo 52 then 1 else 2) * up
  let high := (4 * x.significand + 2) * up
  if x.significand % 2 = 0 then decide (low ≤ value) && decide (value ≤ high)
  else decide (low < value) && decide (value < high)

/-- The decimal with the given number of places that rounds to the number and is nearest to it. With
fewer than no places it is a multiple of a power of ten. -/
def withPlaces? (x : Binary64) (places : Int) : Option Nat :=
  let numerator := x.significand * twoTo x.exponent.toNat * Decimal.tenTo places.toNat
  let denominator := twoTo (-x.exponent).toNat * Decimal.tenTo (-places).toNat
  let below := numerator / denominator
  [roundDiv numerator denominator, below, below + 1].find? (x.contains places)

/-- Tries more and more places, and gives the number found at least one. -/
def search (x : Binary64) : Nat → Int → Decimal
  | 0, _ => { unscaled := 0, places := 1 }
  | steps + 1, places =>
    match x.withPlaces? places with
    | some candidate =>
      { unscaled := candidate * Decimal.tenTo (1 - places).toNat, places := (max places 1).toNat }
    | none => search x steps (places + 1)

/-- The decimal with the fewest digits that rounds to the number, with one place at least. A multiple
of a large power of two can be far from its neighbours and may do with the multiple of a power of
ten; all other numbers begin with one place. With as many places as there are halvings the number is
a decimal itself, so the search needs no more steps than that. -/
def shortest (x : Binary64) : Decimal :=
  let first : Int := if 0 < x.exponent then -(x.exponent + precision) else 1
  x.search (x.exponent.natAbs + precision + 1) first

end Binary64
end Number
end RelationLang
