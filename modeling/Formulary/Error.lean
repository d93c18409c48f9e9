import Formulary.Binary64.Text
import Formulary.Operator

/-! # Errors

Every way in which a formula can be refused, as a cause with its data, and the French text of each.
A malformed formula is reported with a position, counted in characters of the formula.
-/

namespace Formulary

/-- What is wrong with the text of a formula, or with the pieces it was cut into. -/
inductive Defect where
  | reservedCharacter
  | blankBetweenOperands
  | emptyFormula
  | bracketExpected
  | bracketUnmatched
  | placeholderCount (places tokens : Nat)
  | nestedTooDeep
  | closedNotOpened
  | openedNotClosed
  | strayComma
  | missingOperand
  | missingArgument
  | missingOperator
  | unknownOperator
  | operandExpected
  | treeTooTall
  | surplusPlaceholder
  | otherPlaceholder
  | unusedTokens
  | functionWithoutArguments (name : String)
  | noTerm
  | notAFunction (name : String)
  | argumentCount (function : String) (count : Nat)
deriving DecidableEq, Repr

/-- Why a value cannot be computed. -/
inductive ArithmeticFault where
  | divisionByZero (op : BinOp)
  | notFinite (op : BinOp)
  | zeroToNegative
  | negativeToFraction
  | noArgument (function : String)
  | outsideDomain (function : String) (argument : Float)
  | outsideRange
deriving DecidableEq

inductive Error where
  | malformed (position : Nat) (defect : Defect)
  | unknownIdentifier (name : String)
  | arithmetic (fault : ArithmeticFault)
deriving DecidableEq

namespace Defect

def message : Defect → String
  | reservedCharacter => "caractère réservé"
  | blankBetweenOperands => "opérateur manquant entre deux opérandes"
  | emptyFormula => "entrée vide"
  | bracketExpected => "parenthèse attendue"
  | bracketUnmatched => "parenthèse non appariée"
  | placeholderCount places tokens =>
    "squelette incohérent : " ++ toString places ++ " places pour " ++ toString tokens ++ " jetons"
  | nestedTooDeep => "imbrication trop profonde"
  | closedNotOpened => "parenthèse fermante sans ouvrante"
  | openedNotClosed => "parenthèse non fermée"
  | strayComma => "virgule hors d’un appel de fonction"
  | missingOperand => "opérande manquant"
  | missingArgument => "argument manquant"
  | missingOperator => "opérateur manquant"
  | unknownOperator => "opérateur inconnu"
  | operandExpected => "opérande attendu"
  | treeTooTall => "formule trop longue (arbre trop profond)"
  | surplusPlaceholder => "squelette : placeholder en trop"
  | otherPlaceholder => "squelette : genre de placeholder inattendu"
  | unusedTokens => "squelette : jetons non consommés"
  | functionWithoutArguments name => "la fonction " ++ name ++ " est utilisée sans argument"
  | noTerm => "jeton sans terme"
  | notAFunction name => name ++ " n’est pas une fonction"
  | argumentCount function count =>
    function ++ " : nombre d’arguments incorrect (" ++ toString count ++ ")"

end Defect

/-- The French noun for what an operator does. -/
def BinOp.noun : BinOp → String
  | add => "addition"
  | sub => "soustraction"
  | mul => "multiplication"
  | div => "division"
  | floorDiv => "division entière"
  | mod => "modulo"
  | pow => "puissance"

namespace ArithmeticFault

def message : ArithmeticFault → String
  | divisionByZero op => op.noun ++ " par zéro"
  | notFinite op => op.noun ++ " : résultat non fini (domaine ou dépassement)"
  | zeroToNegative => "zéro élevé à une puissance négative"
  | negativeToFraction => "base négative et exposant fractionnaire (résultat complexe)"
  | noArgument function => function ++ " : aucun argument"
  | outsideDomain function x => function ++ "(" ++ Binary64.text x ++ ") : hors du domaine"
  | outsideRange => "résultat hors de la plage des flottants"

end ArithmeticFault

namespace Error

def message : Error → String
  | malformed position defect =>
    "expression mal formée (position " ++ toString position ++ ") : " ++ defect.message
  | unknownIdentifier name => "identifiant inconnu : " ++ name
  | arithmetic fault => "échec arithmétique : " ++ fault.message

end Error

end Formulary
