/-! # Operators

The seven binary operators of a formula, the two signs, and how they are spelled.
-/

namespace Formulary

inductive BinOp where
  | add
  | sub
  | mul
  | div
  /-- Division rounded down to a whole number. -/
  | floorDiv
  /-- What floor division leaves; it has the sign of the divisor. -/
  | mod
  | pow
deriving DecidableEq, Repr

namespace BinOp

def symbol : BinOp → List Char
  | add => ['+']
  | sub => ['-']
  | mul => ['*']
  | div => ['/']
  | floorDiv => ['/', '/']
  | mod => ['%']
  | pow => ['*', '*']

def all : List BinOp :=
  [add, sub, mul, div, floorDiv, mod, pow]

/-- The operator with the given spelling. -/
def ofSymbol? (s : List Char) : Option BinOp :=
  all.find? fun op => op.symbol == s

theorem ofSymbol?_symbol (op : BinOp) : ofSymbol? op.symbol = some op := by
  cases op <;> rfl

end BinOp

/-- A sign in front of an operand. -/
inductive Sign where
  | plus
  | minus
deriving DecidableEq, Repr

namespace Sign

def symbol : Sign → Char
  | plus => '+'
  | minus => '-'

def ofChar? (c : Char) : Option Sign :=
  if c = '+' then some plus else if c = '-' then some minus else none

theorem ofChar?_symbol (s : Sign) : ofChar? s.symbol = some s := by
  cases s <;> rfl

end Sign

end Formulary
