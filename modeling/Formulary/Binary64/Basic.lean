import Formulary.Decimal

/-! # Binary64 numbers and rationals

A finite `Float` has an exact rational value, and every rational has a nearest `Float`.  Both
directions are exact integer arithmetic on a mantissa and a power of two.
-/

namespace Formulary.Binary64

open Float.Model (UnpackedFloat)

/-- A float taken apart: sign, natural mantissa and exponent of two. -/
def unpack (x : Float) : UnpackedFloat :=
  x.toModel.unpack

/-- The float with the given parts, which must fit the format. -/
def pack (u : UnpackedFloat) : Float :=
  .ofModel (.pack u)

/-- The float nearest to `± m * 2 ^ e`. -/
def ofScaled (s : UnpackedFloat.Sign) (m : Nat) (e : Int) : Float :=
  pack (UnpackedFloat.round .binary64 s m e)

/-- The value of a finite float. -/
def toRat? (x : Float) : Option Rat :=
  match unpack x with
  | .finite s m e _ => some ((s.apply m : Rat) * (2 : Rat) ^ e)
  | .zero _ => some 0
  | .infinity _ | .notANumber => none

/-- The exponent of two with `2 ^ e ≤ n / d < 2 ^ (e + 1)`, for positive `n` and `d`. -/
def log2Quotient (n d : Nat) : Int :=
  let e : Int := n.log2 - d.log2
  if n <<< (-e).toNat < d <<< e.toNat then e - 1 else e

/-- The exponent of the last binary place that is kept of `n / d`: the 53rd place, or the last one
that the format has. -/
def lastPlace (n d : Nat) : Int :=
  max (log2Quotient n d - 52) (-1074)

/-- The float nearest to `r`, of two the one with the even mantissa; an infinity beyond the range,
and a zero with the sign of `r` below it. -/
def ofRat (r : Rat) : Float :=
  let n := r.num.natAbs
  if n = 0 then 0
  else
    let e := lastPlace n r.den
    let m := roundHalfEven (n <<< (-e).toNat) (r.den <<< e.toNat)
    ofScaled (if r.num < 0 then .negative else .positive) m e

end Formulary.Binary64
