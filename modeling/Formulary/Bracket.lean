import Formulary.Error

/-! # Matching brackets

The bracket that belongs to a given one: the nearest one, forward from `(` or backward from `)`,
where as many brackets have been closed as opened.
-/

namespace Formulary.Bracket

/-- The index in `cs` of the bracket that ends a group opened before `cs`, when `depth` groups have
been opened in between. -/
def closing? (opener closer : Char) : (depth : Nat) → List Char → Option Nat
  | _, [] => none
  | depth, c :: cs =>
    if c = closer then
      match depth with
      | 0 => some 0
      | depth + 1 => (closing? opener closer depth cs).map (· + 1)
    else if c = opener then (closing? opener closer (depth + 1) cs).map (· + 1)
    else (closing? opener closer depth cs).map (· + 1)

/-- How far the bracket at the head of a text is from the one that ends its group. -/
def distance? (opener closer : Char) : List Char → Except Defect Nat
  | [] => .error .bracketExpected
  | c :: cs =>
    if c = opener then
      match closing? opener closer 0 cs with
      | some k => .ok (k + 1)
      | none => .error .bracketUnmatched
    else .error .bracketExpected

inductive Direction where
  | forward
  | backward
deriving DecidableEq, Repr

namespace Direction

def opener : Direction → Char
  | forward => '('
  | backward => ')'

def closer : Direction → Char
  | forward => ')'
  | backward => '('

/-- The characters from index `start` on; none if there is no such index. -/
def ahead (text : List Char) (start : Nat) : Direction → List Char
  | forward => text.drop start
  | backward => if start < text.length then (text.take (start + 1)).reverse else []

/-- The index `k` characters further on. -/
def advance (start k : Nat) : Direction → Nat
  | forward => start + k
  | backward => start - k

end Direction

/-- The index of the bracket that belongs to the one at index `start`. -/
def matching (text : List Char) (start : Nat) (direction : Direction) : Except Error Nat :=
  match distance? direction.opener direction.closer (direction.ahead text start) with
  | .ok k => .ok (direction.advance start k)
  | .error defect => .error (.malformed start defect)

end Formulary.Bracket
