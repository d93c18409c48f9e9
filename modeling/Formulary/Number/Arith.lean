import Formulary.Binary64.Arith
import Formulary.Error
import Formulary.Number.Basic

/-! # Arithmetic

Exact operands give an exact result.  As soon as one operand is a float both are converted, and the
result must be finite.  Floor division rounds down and the modulo has the sign of the divisor.
-/

namespace Formulary.Number

/-- A float result, which must be finite. -/
def finite (op : BinOp) (x : Float) : Except Error Number :=
  if x.isFinite then .ok (.real x) else .error (.arithmetic (.notFinite op))

def add : Number → Number → Except Error Number
  | exact a, exact b => .ok (.exact (a + b))
  | a, b => finite .add (a.toFloat + b.toFloat)

def sub : Number → Number → Except Error Number
  | exact a, exact b => .ok (.exact (a - b))
  | a, b => finite .sub (a.toFloat - b.toFloat)

def mul : Number → Number → Except Error Number
  | exact a, exact b => .ok (.exact (a * b))
  | a, b => finite .mul (a.toFloat * b.toFloat)

/-- Refuses a divisor of zero, and otherwise goes on with `k`. -/
def divisor (op : BinOp) (b : Number) (k : Except Error Number) : Except Error Number :=
  if b.isZero then .error (.arithmetic (.divisionByZero op)) else k

def div (a b : Number) : Except Error Number :=
  divisor .div b <|
    match a, b with
    | exact a, exact b => .ok (.exact (a / b))
    | a, b => finite .div (a.toFloat / b.toFloat)

/-- The quotient of floats rounded down: what is left after taking the modulo away is divided. -/
def floorQuotient (x y : Float) : Float :=
  Binary64.roundHalfAway ((x - Binary64.modulo x y) / y)

def floorDiv (a b : Number) : Except Error Number :=
  divisor .floorDiv b <|
    match a, b with
    | exact a, exact b => .ok (.exact (a / b).floor)
    | a, b => finite .floorDiv (floorQuotient a.toFloat b.toFloat)

def mod (a b : Number) : Except Error Number :=
  divisor .mod b <|
    match a, b with
    | exact a, exact b => .ok (.exact (a - b * (a / b).floor))
    | a, b => finite .mod (Binary64.modulo a.toFloat b.toFloat)

/-- The largest exponent of an exact power. -/
def maxExactExponent : Nat := 4096

/-- The largest size of an exact power, in bits. -/
def maxExactBits : Nat := 65536

/-- The number of binary digits; zero has none. -/
def bitLength (n : Nat) : Nat :=
  if n = 0 then 0 else n.log2 + 1

/-- The exponent as an integer, if the power of `base` is to be computed exactly: the exponent is a
whole number within its limit, and so is the size of the result. -/
def exactExponent? (base e : Rat) : Option Int :=
  let n := e.num.natAbs
  let bits := max (bitLength base.num.natAbs) (bitLength base.den)
  if e.den = 1 ∧ n ≤ maxExactExponent ∧ bits * n ≤ maxExactBits then some e.num else none

/-- `acc * base ^ n` by squaring: the binary digits of `n` are used from the lowest on. -/
def powerFrom (acc base : Rat) (n : Nat) : Rat :=
  if n = 0 then acc
  else powerFrom (if n % 2 = 1 then acc * base else acc) (base * base) (n / 2)

/-- The power of a rational to an integer. -/
def rationalPower (base : Rat) : Int → Rat
  | .ofNat n => powerFrom 1 base n
  | .negSucc n => 1 / powerFrom 1 base (n + 1)

def exactPower (base : Rat) (n : Int) : Except Error Number :=
  if base = 0 ∧ n < 0 then .error (.arithmetic .zeroToNegative)
  else .ok (.exact (rationalPower base n))

def realPower (x y : Float) : Except Error Number :=
  if x == 0 && y < 0 then .error (.arithmetic .zeroToNegative)
  else if x < 0 && !Binary64.isWhole y then .error (.arithmetic .negativeToFraction)
  else finite .pow (Binary64.power x y)

/-- A power is exact if both numbers are and the limits allow it, and a float otherwise. -/
def pow (a b : Number) : Except Error Number :=
  match a, b with
  | exact base, exact e =>
    match exactExponent? base e with
    | some n => exactPower base n
    | none => realPower (Binary64.ofRat base) (Binary64.ofRat e)
  | a, b => realPower a.toFloat b.toFloat

/-- What a binary operator computes. -/
def binary : BinOp → Number → Number → Except Error Number
  | .add => add
  | .sub => sub
  | .mul => mul
  | .div => div
  | .floorDiv => floorDiv
  | .mod => mod
  | .pow => pow

end Formulary.Number
