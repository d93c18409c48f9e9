import Formulary.Binary64.Basic
import Formulary.Decimal

/-! # Decimal text of binary64 numbers

Three texts of a float: the shortest decimal that reads back to it, a decimal with a fixed number
of places, and scientific notation with a fixed number of places.  A positive float is here
`m * 2 ^ e`, and a decimal `c * 10 ^ p`; all comparisons are made on natural numbers.
-/

namespace Formulary.Binary64

open Float.Model (UnpackedFloat)

/-- The numerator of `m * 2 ^ e / 10 ^ p` over `denominator e p`. -/
def numerator (m : Nat) (e p : Int) : Nat :=
  (m <<< e.toNat) * Nat.pow 10 (-p).toNat

/-- The denominator of `m * 2 ^ e / 10 ^ p`. -/
def denominator (e p : Int) : Nat :=
  Nat.pow 10 p.toNat <<< (-e).toNat

/-- Is `c * 10 ^ p` among the reals that round to `m * 2 ^ e`?  They lie halfway to both
neighbours, the ends included when `m` is even; below a power of two the neighbour is half as far
away. -/
def readsBack (m : Nat) (e : Int) (c : Nat) (p : Int) : Bool :=
  let low := if m = 1 <<< 52 ∧ -1074 < e then 4 * m - 1 else 4 * m - 2
  let least := numerator low (e - 2) p
  let most := numerator (4 * m + 2) (e - 2) p
  let point := c * denominator (e - 2) p
  if m % 2 = 0 then least ≤ point && point ≤ most else least < point && point < most

/-- The point of the grid `10 ^ p` that reads back as `m * 2 ^ e`: of two the nearer, and the upper
one of two that are equally near. -/
def onGrid? (m : Nat) (e p : Int) : Option Nat :=
  let n := numerator m e p
  let d := denominator e p
  let c := n / d
  match readsBack m e c p, readsBack m e (c + 1) p with
  | true, true => some (if 2 * (n % d) < d then c else c + 1)
  | true, false => some c
  | false, true => some (c + 1)
  | false, false => none

/-- The exponent of the leading decimal digit: `10 ^ k ≤ m * 2 ^ e < 10 ^ (k + 1)`.  The binary
logarithm leaves two candidates. -/
def decade (m : Nat) (e : Int) : Int :=
  let k := (m.log2 + 1 + e) * 30103 / 100000
  if denominator e k ≤ numerator m e k then k else k - 1

/-- The first of the grids `10 ^ p`, `10 ^ (p - 1)`, … with a point that reads back, or the exact
value if none of them has one. -/
def search (m : Nat) (e : Int) : Nat → Int → Nat × Int
  | 0, _ => if 0 ≤ e then (m <<< e.toNat, 0) else (m * Nat.pow 5 (-e).toNat, e)
  | n + 1, p =>
    match onGrid? m e p with
    | some c => (c, p)
    | none => search m e n (p - 1)

/-- The decimal `c * 10 ^ p` with the fewest digits that reads back as `m * 2 ^ e`.  The grid
`10 ^ (min e 0)` holds the value itself. -/
def shortest (m : Nat) (e : Int) : Nat × Int :=
  let p := decade m e + 1
  search m e (p - min e 0 + 1).toNat p

/-- The text of `c * 10 ^ p`, without an exponent. -/
def positional (c : Nat) (p : Int) : List Char :=
  Decimal.fixed (-p).toNat (c * Nat.pow 10 p.toNat)

/-- The text of `m * 2 ^ e` in scientific notation, `places` digits after the point, correctly
rounded. -/
def scientificDigits (places m : Nat) (e : Int) : List Char :=
  let k := decade m e
  let p := k - places
  let c := roundHalfEven (numerator m e p) (denominator e p)
  let carried := Nat.pow 10 (places + 1) ≤ c
  let c := if carried then c / 10 else c
  let k := if carried then k + 1 else k
  Decimal.fixed places c ++ 'e' :: (toString k).toList

/-- A text with a minus sign in front of signed numbers. -/
def withSign (s : UnpackedFloat.Sign) (text : List Char) : String :=
  match s with
  | .negative => String.ofList ('-' :: text)
  | .positive => String.ofList text

/-- The text of a float, from the text of its magnitude as `m * 2 ^ e`. -/
def textWith (magnitude : Nat → Int → List Char) (x : Float) : String :=
  match unpack x with
  | .finite s m e _ => withSign s (magnitude m e)
  | .zero s => withSign s (magnitude 0 0)
  | .infinity s => withSign s ['i', 'n', 'f']
  | .notANumber => "NaN"

/-- The shortest decimal that reads back as `x`, without an exponent: `0.1`, `-0`, `1000`. -/
def text (x : Float) : String :=
  textWith (fun m e =>
    if m = 0 then ['0']
    else
      let r := shortest m e
      positional r.1 r.2) x

/-- The text of `x` with a fixed number of places after the point, correctly rounded.  Formatters
that take the precision as a number of sixteen bits refuse more than 65535 places.  That limit is
not part of the definition: texts with more places are outside the scope of this library. -/
def fixedText (places : Nat) (x : Float) : String :=
  textWith (fun m e =>
    let p : Int := -places
    Decimal.fixed places (roundHalfEven (numerator m e p) (denominator e p))) x

/-- The text of `x` as one digit, `places` digits after the point and an exponent of ten, correctly
rounded. -/
def scientificText (places : Nat) (x : Float) : String :=
  textWith (fun m e =>
    if m = 0 then Decimal.fixed places 0 ++ ['e', '0']
    else scientificDigits places m e) x

end Formulary.Binary64
