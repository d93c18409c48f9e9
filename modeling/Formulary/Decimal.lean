/-! # Rounded quotients and positional decimal text

A quotient of natural numbers, rounded to the nearest natural number.  Natural numbers, and natural
numbers divided by a power of ten, written out in decimal digits.
-/

namespace Formulary

/-! ## Rounding a quotient -/

/-- Rounds `n / d` to the nearest integer; a half goes to the even neighbour. -/
def roundHalfEven (n d : Nat) : Nat :=
  let q := n / d
  match compare (2 * (n % d)) d with
  | .lt => q
  | .eq => q + q % 2
  | .gt => q + 1

/-- Rounds `n / d` to the nearest integer; a half goes up. -/
def roundHalfUp (n d : Nat) : Nat :=
  (2 * n + d) / (2 * d)

namespace Decimal

/-! ## Digits -/

/-- The digits of `n`, the most significant one first; zero has one digit. -/
def digits (n : Nat) : List Char :=
  Nat.toDigits 10 n

/-- The digits of `n`, with zeros in front up to `width`. -/
def padded (width n : Nat) : List Char :=
  let ds := digits n
  List.replicate (width - ds.length) '0' ++ ds

/-- Without the zeros at the end. -/
def dropZeros (ds : List Char) : List Char :=
  (ds.reverse.dropWhile (· == '0')).reverse

/-- Digits read as a natural number; no digits read as zero. -/
def value (ds : List Char) : Nat :=
  Nat.ofDigitChars 10 ds 0

/-! ## Decimals -/

/-- The text of `n / 10 ^ places` with exactly `places` digits after the point, and no point if
there are none. -/
def fixed (places n : Nat) : List Char :=
  if places = 0 then digits n
  else digits (n / Nat.pow 10 places) ++ '.' :: padded places (n % Nat.pow 10 places)

/-- The power of ten by which exact numbers are scaled.  The exponent is a word of thirty-two bits:
of a larger one the lower bits are kept. -/
def powerOfTen (exponent : Nat) : Nat :=
  Nat.pow 10 (exponent % UInt32.size)

/-- The digits of `n % powerOfTen places` as `places` digits, without the zeros at the end.  Of zero
nothing is left, so the zeros are not written out first. -/
def fractionDigits (places n : Nat) : List Char :=
  let rest := n % powerOfTen places
  if rest = 0 then [] else dropZeros (padded places rest)

/-- The text of `n / powerOfTen places` with at most `places` digits after the point, the last of
them not zero, and no bare point. -/
def trimmed (places n : Nat) : List Char :=
  let fraction := fractionDigits places n
  digits (n / powerOfTen places) ++ (if fraction.isEmpty then [] else '.' :: fraction)

end Decimal

end Formulary
