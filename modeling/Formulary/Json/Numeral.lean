import Formulary.Binary64.Basic
import Formulary.Decimal

/-! # JSON numerals

A number of a JSON text is kept as it is written, since an integer and a fraction of equal value are
not interchangeable.  Its float is the one nearest to its decimal value, of which as many digits
are told apart as a number halfway between two floats may have.
-/

namespace Formulary.Json

structure Numeral where
  negative : Bool
  whole : List Char
  /-- The digits after the point, if there is one. -/
  fraction : Option (List Char)
  exponent : Option Int
deriving DecidableEq, Repr

namespace Numeral

/-- The digits at the head of a text, of which there must be one, and what follows. -/
def digits? (cs : List Char) : Option (List Char × List Char) :=
  let ds := cs.takeWhile Char.isDigit
  if ds.isEmpty then none else some (ds, cs.dropWhile Char.isDigit)

/-- The digits before the point: a single zero, or no zero in front. -/
def whole? (cs : List Char) : Option (List Char × List Char) :=
  match digits? cs with
  | some ('0' :: _ :: _, _) => none
  | found => found

def fraction? : List Char → Option (Option (List Char) × List Char)
  | '.' :: cs => (digits? cs).map fun (ds, rest) => (some ds, rest)
  | cs => some (none, cs)

/-- The digits of an exponent, after its sign. -/
def signedDigits? (negative : Bool) (cs : List Char) : Option (Option Int × List Char) :=
  (digits? cs).map fun (ds, rest) =>
    let k : Int := Decimal.value ds
    (some (if negative then -k else k), rest)

def exponent? : List Char → Option (Option Int × List Char)
  | mark :: cs =>
    if mark == 'e' || mark == 'E' then
      match cs with
      | '-' :: cs => signedDigits? true cs
      | '+' :: cs => signedDigits? false cs
      | cs => signedDigits? false cs
    else some (none, mark :: cs)
  | [] => some (none, [])

/-- The number at the head of a text, and what follows. -/
def read? (cs : List Char) : Option (Numeral × List Char) := do
  let negative := cs.head? == some '-'
  let (whole, cs) ← whole? (if negative then cs.drop 1 else cs)
  let (fraction, cs) ← fraction? cs
  let (exponent, cs) ← exponent? cs
  return (⟨negative, whole, fraction, exponent⟩, cs)

/-- How many different words of 64 bits there are. -/
def wordCount : Nat := 18446744073709551616

/-- A natural number of 64 bits, written without a sign, a point or an exponent. -/
def toWord? (n : Numeral) : Option Nat :=
  if n.negative || n.fraction.isSome || n.exponent.isSome then none
  else if Decimal.value n.whole < wordCount then some (Decimal.value n.whole) else none

/-- How many significant digits are told apart.  A number halfway between two floats has fewer, so
the digits after them can only say that there is more. -/
def keptDigits : Nat := 768

/-- The digits of a numeral from the first that is not zero, and the power of ten that the last of
them counts.  Beyond the digits kept, a single one stands for all that follow. -/
def significand (n : Numeral) : List Char × Int :=
  let fraction := Decimal.dropZeros (n.fraction.getD [])
  let ds := (n.whole ++ fraction).dropWhile (· == '0')
  let k := n.exponent.getD 0 - fraction.length
  if ds.length ≤ keptDigits then (ds, k)
  else (ds.take keptDigits ++ ['1'], k + (ds.length - (keptDigits + 1) : Nat))

/-- The float nearest to digits times `10 ^ k`, if it is in range.  The first digit is not zero, so
the number lies in `10 ^ (top - 1) ≤ r < 10 ^ top`, which settles what is far out of range. -/
def nearest? (ds : List Char) (k : Int) : Option Float :=
  let top := ds.length + k
  if ds.isEmpty || top < -323 then some 0
  else if 309 < top then none
  else
    let r := mkRat (Decimal.value ds * Nat.pow 10 k.toNat : Nat) (Nat.pow 10 (-k).toNat)
    let x := Binary64.ofRat r
    if x.isInf then none else some x

/-- The float of a numeral, if it is in range; a zero keeps its sign. -/
def toFloat? (n : Numeral) : Option Float :=
  let (ds, k) := n.significand
  (nearest? ds k).map fun x => if n.negative then -x else x

end Numeral

end Formulary.Json
