import Formulary.Expr.Basic
import Formulary.Skeleton.Basic

/-! # Values of expressions

Operands are computed from left to right, and the first failure is the answer.  The number of
arguments of a call is checked before they are computed.
-/

namespace Formulary

/-- Where a token stands in the formula; zero if there is no such token. -/
def Token.positionAt (tokens : List Token) (i : Nat) : Nat :=
  match tokens[i]? with
  | some t => t.position
  | none => 0

/-- The text of a token, or a question mark. -/
def Token.textAt (tokens : List Token) (i : Nat) : String :=
  match tokens[i]? with
  | some t => t.text
  | none => "?"

namespace Sign

def apply : Sign → Number → Number
  | plus, x => x
  | minus, x => x.neg

end Sign

namespace Expr

/-- The number that a token stands for. -/
def operandValue (tokens : List Token) (terms : List Term) (i : Nat) : Except Error Number :=
  match terms[i]? with
  | some (.number x) => .ok x
  | some (.function _ _) =>
    .error (.malformed (Token.positionAt tokens i)
      (.functionWithoutArguments (Token.textAt tokens i)))
  | none => .error (.malformed (Token.positionAt tokens i) .noTerm)

/-- The function that a token stands for, if it takes `count` arguments. -/
def calleeFunction (tokens : List Token) (terms : List Term) (i count : Nat) :
    Except Error (Function × AngleUnit) :=
  match terms[i]? with
  | some (.function f unit) =>
    if f.accepts count then .ok (f, unit)
    else .error (.malformed (Token.positionAt tokens i) (.argumentCount f.name count))
  | _ => .error (.malformed (Token.positionAt tokens i) (.notAFunction (Token.textAt tokens i)))

mutual

/-- The value of an expression, with a term for each token. -/
def evaluate (tokens : List Token) (terms : List Term) : Expr → Except Error Number
  | operand i => operandValue tokens terms i
  | group x => evaluate tokens terms x
  | unary sign x => do
    let v ← evaluate tokens terms x
    return sign.apply v
  | binary op a b => do
    let x ← evaluate tokens terms a
    let y ← evaluate tokens terms b
    Number.binary op x y
  | call f args => do
    let (function, unit) ← calleeFunction tokens terms f args.length
    let values ← evaluateAll tokens terms args
    function.apply unit values

def evaluateAll (tokens : List Token) (terms : List Term) :
    List Expr → Except Error (List Number)
  | [] => .ok []
  | e :: es => do
    let x ← evaluate tokens terms e
    let xs ← evaluateAll tokens terms es
    return x :: xs

end

end Expr

end Formulary
