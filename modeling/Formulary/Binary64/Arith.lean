import Formulary.Binary64.Basic

/-! # Operations on binary64 numbers

Remainder, rounding to a whole number and powers.  The first two are exact.  The special values of
a power are those of IEEE 754.
-/

namespace Formulary.Binary64

open Float.Model (UnpackedFloat)

/-- What is left of `x` after taking away `y` a whole number of times, towards zero.  The result
has the sign of `x` and is exact. -/
def remainder (x y : Float) : Float :=
  match unpack x, unpack y with
  | .notANumber, _ | _, .notANumber | .infinity _, _ | _, .zero _ => pack .notANumber
  | .zero _, _ | _, .infinity _ => x
  | .finite s m e _, .finite _ n f _ =>
    let k := min e f
    let r := (m <<< (e - k).toNat) % (n <<< (f - k).toNat)
    if r = 0 then pack (.zero s) else ofScaled s r k

/-- The remainder with the sign of the divisor. -/
def modulo (x y : Float) : Float :=
  let r := remainder x y
  if r != 0 && decide (r < 0) != decide (y < 0) then r + y else r

/-- The nearest whole number; a half goes away from zero. -/
def roundHalfAway (x : Float) : Float :=
  match unpack x with
  | .finite s m e _ =>
    if 0 ≤ e then x
    else
      let q := roundHalfUp m (1 <<< (-e).toNat)
      if q = 0 then pack (.zero s) else ofScaled s q 0
  | _ => x

/-- Has `x` a fractional part of zero?  The infinities and NaN have none. -/
def isWhole (x : Float) : Bool :=
  match unpack x with
  | .finite _ m e _ => 0 ≤ e || m % (1 <<< (-e).toNat) = 0
  | .zero _ => true
  | .infinity _ | .notANumber => false

/-- Is `x` an odd whole number? -/
def isOdd (x : Float) : Bool :=
  match unpack x with
  | .finite _ m e _ =>
    let unit := 1 <<< (-e).toNat
    e ≤ 0 && m % unit = 0 && m / unit % 2 = 1
  | .zero _ | .infinity _ | .notANumber => false

/-- Has `x` a minus sign?  So have the numbers below zero, and `-0`. -/
def hasMinus (x : Float) : Bool :=
  match unpack x with
  | .finite s .. | .zero s | .infinity s => s == .negative
  | .notANumber => false

/-- The power of a number that has no minus sign, to an exponent other than zero.  What grows
without bound is infinite and what shrinks without bound is zero. -/
def magnitude (x y : Float) : Float :=
  if x == 1 then 1
  else if x == 0 || x.isInf || y.isInf then
    if decide (x < 1) == decide (y < 0) then pack (.infinity .positive) else 0
  else (x.pow y).abs

/-- The power of `x` to the exponent `y`.  Every number to the power zero is one, and so is every
power of one.  A number below zero has powers to whole exponents only; the odd ones have its
sign. -/
def power (x y : Float) : Float :=
  if y == 0 || x == 1 then 1
  else if x.isNaN || y.isNaN || x < 0 && x.isFinite && y.isFinite && !isWhole y then
    pack .notANumber
  else if hasMinus x && isOdd y then -magnitude x.abs y
  else magnitude x.abs y

end Formulary.Binary64
