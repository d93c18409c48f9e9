import Formulary.Operator

/-! # Expressions

The tree of a formula.  Its leaves name tokens by their index; what a token means is decided when
the formula is bound.  Brackets written in the formula are kept, since they are drawn.
-/

namespace Formulary

inductive Expr where
  /-- A token used as a value. -/
  | operand (token : Nat)
  /-- An expression in brackets. -/
  | group (inner : Expr)
  | unary (sign : Sign) (operand : Expr)
  | binary (op : BinOp) (left right : Expr)
  /-- A token applied to arguments. -/
  | call (callee : Nat) (args : List Expr)
deriving Repr, BEq, Inhabited

namespace Expr

/-- The expression without one pair of brackets around it. -/
def strip : Expr → Expr
  | group inner => inner
  | e => e

mutual

/-- The tokens in reading order; a callee comes before its arguments. -/
def tokenOrder : Expr → List Nat
  | operand i => [i]
  | group x => x.tokenOrder
  | unary _ x => x.tokenOrder
  | binary _ a b => a.tokenOrder ++ b.tokenOrder
  | call f args => f :: tokenOrderList args

def tokenOrderList : List Expr → List Nat
  | [] => []
  | e :: es => e.tokenOrder ++ tokenOrderList es

end

mutual

/-- The number of nodes on the longest path from the root. -/
def height : Expr → Nat
  | operand _ => 1
  | group x => x.height + 1
  | unary _ x => x.height + 1
  | binary _ a b => max a.height b.height + 1
  | call _ args => heightList args + 1

def heightList : List Expr → Nat
  | [] => 0
  | e :: es => max e.height (heightList es)

end

end Expr

end Formulary
