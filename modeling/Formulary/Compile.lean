import Formulary.Binding.Meaning
import Formulary.Expr.Evaluate
import Formulary.Expr.OfSkeleton
import Formulary.Expr.Typeset
import Formulary.Skeleton.OfFormula
import Formulary.Template

/-! # Compiling a formula

A formula is cut into tokens and read as an expression.  The expression is typeset once, as a
template, and the template is filled twice: with the symbols of the tokens and with their values.
The expression is evaluated, and its value must fit a float.
-/

namespace Formulary

/-- The result of a formula, and the steps that led to it. -/
structure Compiled where
  /-- The value as a float. -/
  result : Float
  value : Number
  texWithSymbols : String
  texWithValues : String
  /-- The token texts, separated by spaces. -/
  tokenTexts : String
  skeleton : String
  template : String
deriving DecidableEq

/-- Compiles a formula with the given variables. -/
def compile (formula : String) (table : Bindings) (options : Options) : Except Error Compiled := do
  let (skeleton, tokens) ← Skeleton.ofFormula formula
  let e ← Expr.ofSkeleton skeleton tokens
  let template := e.typeset tokens options
  let meanings ← bind table options tokens
  let value ← e.evaluate tokens (meanings.map (·.term))
  let withSymbols ← Template.fill template tokens (meanings.map (·.symbol))
  let withValues ← Template.fill template tokens (meanings.map (·.value))
  if value.toFloat.isFinite then
    return ⟨value.toFloat, value, withSymbols, withValues, Token.joinTexts tokens, skeleton.text,
      template⟩
  else throw (.arithmetic .outsideRange)

end Formulary
