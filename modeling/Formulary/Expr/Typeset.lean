import Formulary.Expr.Basic
import Formulary.Options
import Formulary.Skeleton.Basic

/-! # LaTeX of expressions

An expression is typeset as a template: LaTeX text in which placeholders stand for the tokens, in
reading order.  Brackets that the notation makes superfluous are left out: those around a numerator,
a denominator, an exponent or an argument.
-/

namespace Formulary

/-- The placeholder of a token; nothing if there is no such token. -/
def Token.placeholderAt (tokens : List Token) (i : Nat) : List Char :=
  (tokens[i]?.map Token.placeholder).toList

/-- How a call of a token is drawn. -/
def Token.styleAt (tokens : List Token) (i : Nat) : CallStyle :=
  match tokens[i]? with
  | some t => t.style
  | none => .parenthesized

namespace CallStyle

/-- What opens the argument list. -/
def opening : CallStyle → List Char
  | parenthesized => ['(']
  | radical => ['\x7b']
  | bars => "\\left|".toList

/-- What closes the argument list. -/
def closing : CallStyle → List Char
  | parenthesized => [')']
  | radical => ['\x7d']
  | bars => "\\right|".toList

end CallStyle

namespace Expr

/-- Between the operands of an infix operator. -/
def spaced (left : List Char) (symbol : List Char) (right : List Char) : List Char :=
  left ++ ' ' :: symbol ++ ' ' :: right

def fraction (top bottom : List Char) : List Char :=
  "\\frac\x7b".toList ++ top ++ "\x7d\x7b".toList ++ bottom ++ ['\x7d']

mutual

/-- The text of an expression, with plain brackets; `bare` leaves out the brackets of a group. -/
def render (tokens : List Token) (options : Options) : (bare : Bool) → Expr → List Char
  | _, operand i => Token.placeholderAt tokens i
  | bare, group x =>
    if bare then render tokens options false x else '(' :: render tokens options false x ++ [')']
  | _, unary sign x => sign.symbol :: render tokens options false x
  | _, binary op a b =>
    match op with
    | .add => spaced (render tokens options false a) ['+'] (render tokens options false b)
    | .sub => spaced (render tokens options false a) ['-'] (render tokens options false b)
    | .mul =>
      spaced (render tokens options false a) options.mulSymbol.toList
        (render tokens options false b)
    | .mod =>
      spaced (render tokens options false a) "\\bmod".toList (render tokens options false b)
    | .div => fraction (render tokens options true a) (render tokens options true b)
    | .floorDiv =>
      "\\left\\lfloor ".toList ++
        fraction (render tokens options true a) (render tokens options true b) ++
        " \\right\\rfloor".toList
    | .pow =>
      render tokens options false a ++ "^\x7b".toList ++ render tokens options true b ++ ['\x7d']
  | _, call f args =>
    let style := Token.styleAt tokens f
    Token.placeholderAt tokens f ++ style.opening ++ renderArgs tokens options args ++ style.closing

/-- The arguments of a call, separated by commas. -/
def renderArgs (tokens : List Token) (options : Options) : List Expr → List Char
  | [] => []
  | e :: es =>
    render tokens options true e ++
      (if es.isEmpty then [] else ", ".toList ++ renderArgs tokens options es)

end

/-- Brackets that grow with what they enclose. -/
def sizeBracket (c : Char) : List Char :=
  if c = '(' then "\\left(".toList else if c = ')' then "\\right)".toList else [c]

/-- The template of an expression. -/
def typeset (tokens : List Token) (options : Options) (e : Expr) : String :=
  String.ofList ((render tokens options false e).flatMap sizeBracket)

end Expr

end Formulary
