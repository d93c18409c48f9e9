import Formulary.Decimal

/-! # Number literals

A literal is a decimal number with an optional point and an optional exponent: `12`, `1.5`, `.5`,
`3.`, `1e-3`, `2.5E+4`.  It stands for an exact rational.
-/

namespace Formulary.Literal

/-- The largest exponent of ten that a literal may have, of either sign. -/
def maxExponent : Nat := 16384

def isExponentMark (c : Char) : Bool :=
  c == 'e' || c == 'E'

/-- The digits before and after the first point. -/
def splitPoint (cs : List Char) : List Char × List Char :=
  (cs.takeWhile (· != '.'), (cs.dropWhile (· != '.')).drop 1)

/-- The mantissa as a natural number over a power of ten. -/
def mantissa? (cs : List Char) : Option (Nat × Nat) :=
  let (whole, fraction) := splitPoint cs
  if whole.isEmpty && fraction.isEmpty then none
  else if whole.all Char.isDigit && fraction.all Char.isDigit then
    some (Decimal.value (whole ++ fraction), fraction.length)
  else none

/-- The digits of an exponent, as a natural number within the limit. -/
def exponentDigits? (cs : List Char) : Option Nat :=
  if !cs.isEmpty && cs.all Char.isDigit && Decimal.value cs ≤ maxExponent then
    some (Decimal.value cs)
  else none

/-- An exponent: digits after an optional sign. -/
def exponent? : List Char → Option Int
  | '-' :: cs => (exponentDigits? cs).map fun k => -(k : Int)
  | '+' :: cs => (exponentDigits? cs).map fun k => (k : Int)
  | cs => (exponentDigits? cs).map fun k => (k : Int)

/-- The rational `n / 10 ^ places * 10 ^ k`, the powers of ten as `Decimal.powerOfTen` has them. -/
def scaled (n places : Nat) (k : Int) : Rat :=
  mkRat (n * Decimal.powerOfTen k.toNat : Nat)
    (Decimal.powerOfTen places * Decimal.powerOfTen (-k).toNat)

/-- The value of a literal; nothing for any other text. -/
def read? (cs : List Char) : Option Rat :=
  let tail := cs.dropWhile (!isExponentMark ·)
  match mantissa? (cs.takeWhile (!isExponentMark ·)) with
  | none => none
  | some (n, places) =>
    match tail with
    | [] => some (scaled n places 0)
    | _ :: exponent => (exponent? exponent).map (scaled n places)

end Formulary.Literal
