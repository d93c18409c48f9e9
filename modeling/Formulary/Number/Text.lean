import Formulary.Binary64.Text
import Formulary.Number.Basic

/-! # Text of numbers

Exact numbers are shown as an integer or as a decimal cut after twelve places, floats as the
shortest decimal that reads back.
-/

namespace Formulary

/-- The text of `r` in decimal, cut (towards zero) after `places` places, without zeros at the
end. -/
def decimalText (places : Nat) (r : Rat) : String :=
  let scaled := (r.num * (Decimal.powerOfTen places : Nat)).tdiv r.den
  let text := Decimal.trimmed places scaled.natAbs
  String.ofList (if scaled < 0 then '-' :: text else text)

namespace Number

/-- The places shown of an exact number. -/
def shownPlaces : Nat := 12

def text : Number → String
  | exact r => if r.isInt then toString r.num else decimalText shownPlaces r
  | real x => Binary64.text x

end Number

/-- A float with a fixed number of places, at most 65535 as for `Binary64.fixedText`, or as the
shortest decimal that reads back. -/
def realText (decimals : Option Nat) (x : Float) : String :=
  match decimals with
  | some places => Binary64.fixedText places x
  | none => Binary64.text x

end Formulary
