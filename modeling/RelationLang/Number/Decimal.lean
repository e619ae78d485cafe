/-!
# Decimals

A decimal is a whole number divided by a power of ten. The number of places is kept, so `1` and
`1.0` are different decimals of one value.

**Algorithm.**  A decimal without places is written as a whole number. One with places is written as
floating-point numbers are: positionally from `1e-5` up to `1e16`, and otherwise by its digits with
a point behind the first one, and the power of ten of the first one behind an `e`. A number above
`1e16` needs no places, so with the one place that it is given its last zeros show nothing and are
left out.

**Results.**
* `toNat?_ofNat`: a whole number is read back from its decimal.
-/

namespace RelationLang
namespace Number

/-- The number `unscaled / 10 ^ places`, written with exactly that many places. -/
structure Decimal where
  unscaled : Int
  places : Nat := 0
deriving DecidableEq, Repr, Inhabited

namespace Decimal

def ofNat (n : Nat) : Decimal := { unscaled := n }

/-- The digits of a fraction, with zeros in front up to the given width. -/
def padded (width n : Nat) : String :=
  let digits := toString n
  String.ofList (List.replicate (width - digits.length) '0') ++ digits

def tenTo (exponent : Nat) : Nat := Nat.pow 10 exponent

/-- The sign of a number, which only a negative one has. -/
def minus (z : Int) : String := if z < 0 then "-" else ""

/-- A number in positional notation; the point stands only where there are places. -/
def positional (n places : Nat) : String :=
  if places = 0 then toString n
  else toString (n / tenTo places) ++ "." ++ padded places (n % tenTo places)

/-- The power of ten of the first digit, if the number is written with it. -/
def power? (n places : Nat) : Option Int :=
  let power : Int := (toString n).length - places - 1
  if (n ≠ 0 ∧ power < -5) ∨ (places = 1 ∧ 16 ≤ power) then some power else none

def dropZeros (digits : List Char) : List Char := (digits.reverse.dropWhile (· == '0')).reverse

/-- Digits with a point behind the first one, unless it is the only one. -/
def pointed : List Char → List Char
  | first :: second :: rest => first :: '.' :: second :: rest
  | digits => digits

/-- The digits of a number, and behind an `e` the power of ten of the first one. -/
def scientific (n : Nat) (power : Int) : String :=
  let digits := (toString n).toList
  let shown := if power < 0 then digits else dropZeros digits
  String.ofList (pointed shown) ++ "e" ++ minus power ++ toString power.natAbs

def text (d : Decimal) : String :=
  let n := d.unscaled.natAbs
  minus d.unscaled ++
    match power? n d.places with
    | some power => scientific n power
    | none => positional n d.places

/-- The whole number a decimal is written as, if it is written without places and sign. -/
def toNat? (d : Decimal) : Option Nat :=
  if d.places = 0 ∧ 0 ≤ d.unscaled then some d.unscaled.toNat else none

/-- A whole number is read back from its decimal. -/
theorem toNat?_ofNat (n : Nat) : (ofNat n).toNat? = some n := by simp [toNat?, ofNat]

end Decimal
end Number
end RelationLang
