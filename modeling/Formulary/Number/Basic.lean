import Formulary.Binary64.Basic

/-! # Numbers

A value is an exact rational as long as only literals are involved, and a float from the first
bound variable, constant or transcendental function on.
-/

namespace Formulary

inductive Number where
  | exact (value : Rat)
  | real (value : Float)
deriving DecidableEq

namespace Number

/-- Two numbers of one kind with equal values: NaN differs from itself and the zeros are equal. -/
instance : BEq Number where
  beq
    | exact a, exact b => a == b
    | real x, real y => x == y
    | _, _ => false

def ofInt (n : Int) : Number :=
  exact n

/-- The nearest float. -/
def toFloat : Number → Float
  | exact r => Binary64.ofRat r
  | real x => x

@[simp] theorem toFloat_exact (r : Rat) : (exact r).toFloat = Binary64.ofRat r := rfl
@[simp] theorem toFloat_real (x : Float) : (real x).toFloat = x := rfl

def isExact : Number → Bool
  | exact _ => true
  | real _ => false

def isZero : Number → Bool
  | exact r => r == 0
  | real x => x == 0

/-- Is the value below zero?  `-0` is not. -/
def isNegative : Number → Bool
  | exact r => r < 0
  | real x => x < 0

def neg : Number → Number
  | exact r => exact (-r)
  | real x => real (-x)

def abs : Number → Number
  | exact r => exact r.abs
  | real x => real x.abs

/-- The order of the values: on rationals when both numbers are exact, on floats otherwise. -/
def lessThan : Number → Number → Bool
  | exact a, exact b => a < b
  | a, b => a.toFloat < b.toFloat

end Number

end Formulary
