/-!
# Numerals

Natural numbers below `2 ^ 64`, read from digits of ASCII in a radix of at most sixteen.
-/

namespace RelationLang
namespace Number

/-- The value of a hexadecimal digit, of either case. -/
def hexValue? (c : Char) : Option Nat :=
  if '0' ≤ c ∧ c ≤ '9' then some (c.toNat - '0'.toNat)
  else if 'a' ≤ c ∧ c ≤ 'f' then some (c.toNat - 'a'.toNat + 10)
  else if 'A' ≤ c ∧ c ≤ 'F' then some (c.toNat - 'A'.toNat + 10)
  else none

def digitValue? (radix : Nat) (c : Char) : Option Nat :=
  (hexValue? c).filter fun value => decide (value < radix)

/-- Reads further digits after a number. -/
def ofDigitsFrom? (radix : Nat) : Nat → List Char → Option Nat
  | n, [] => some n
  | n, c :: cs => (digitValue? radix c).bind fun value => ofDigitsFrom? radix (n * radix + value) cs

/-- The number that a nonempty list of digits stands for. -/
def ofDigits? (radix : Nat) (cs : List Char) : Option Nat :=
  if cs = [] then none else ofDigitsFrom? radix 0 cs

/-- The number that a nonempty list of digits stands for, if it fits into 64 bits. -/
def word64? (radix : Nat) (cs : List Char) : Option Nat :=
  (ofDigits? radix cs).filter fun n => decide (n < UInt64.size)

def dropPlus : List Char → List Char
  | '+' :: cs => cs
  | cs => cs

/-- A decimal numeral of 64 bits with an optional plus sign. -/
def decimal64? (text : String) : Option Nat := word64? 10 (dropPlus text.toList)

end Number
end RelationLang
