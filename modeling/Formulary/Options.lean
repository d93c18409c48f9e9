/-! # Options

How formulas and values are written in LaTeX.
-/

namespace Formulary

structure Options where
  /-- The sign of multiplication. -/
  mulSymbol : String
  /-- The decimals of bound values; as few as needed if not given. -/
  decimals : Option Nat
  /-- The command that sets a value with its unit. -/
  unitCommand : String
deriving DecidableEq, Repr

namespace Options

/-- The options used when none are given. -/
def standard : Options :=
  ⟨"\\cdot", none, "\\SI"⟩

instance : Inhabited Options := ⟨standard⟩

end Options

end Formulary
