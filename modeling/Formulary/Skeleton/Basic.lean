import Formulary.Function.Table

/-! # Skeletons and tokens

A formula is cut into tokens (its operands and the names of its functions) and a skeleton: the
operators, brackets and commas, with one placeholder character for each token.  Skeleton and tokens
remember where in the formula they come from.
-/

namespace Formulary

/-- The kind of a token: a special one has a style of its own in which a call of it is drawn. -/
inductive TokenKind where
  | ordinary
  | special (style : CallStyle)
deriving DecidableEq, Repr

namespace TokenKind

/-- A name is special if calls of it are not drawn in parentheses. -/
def ofName (name : String) : TokenKind :=
  match CallStyle.ofName name with
  | .parenthesized => ordinary
  | style => special style

def placeholder : TokenKind → Char
  | ordinary => '□'
  | special _ => '■'

/-- How a call is drawn. -/
def style : TokenKind → CallStyle
  | ordinary => .parenthesized
  | special style => style

end TokenKind

/-- Is `c` one of the two placeholders? -/
def isPlaceholder (c : Char) : Bool :=
  c == '□' || c == '■'

/-- An operand or the name of a function. -/
structure Token where
  text : String
  /-- Its rank among the tokens of the formula. -/
  index : Nat
  /-- Where it begins, in characters of the formula. -/
  position : Nat
  kind : TokenKind
deriving DecidableEq, Repr

namespace Token

def placeholder (t : Token) : Char :=
  t.kind.placeholder

def style (t : Token) : CallStyle :=
  t.kind.style

/-- The token texts, separated by spaces. -/
def joinTexts (tokens : List Token) : String :=
  " ".intercalate (tokens.map (·.text))

end Token

/-- A character of a skeleton and its position in the formula. -/
structure Cell where
  char : Char
  position : Nat
deriving DecidableEq, Repr

structure Skeleton where
  cells : List Cell
  /-- The number of characters of the formula. -/
  length : Nat
deriving DecidableEq, Repr

namespace Skeleton

def chars (s : Skeleton) : List Char :=
  s.cells.map (·.char)

def text (s : Skeleton) : String :=
  String.ofList s.chars

/-- The position in the formula of the character at index `i`; the end of the formula if there is
none. -/
def position (s : Skeleton) (i : Nat) : Nat :=
  match s.cells[i]? with
  | some cell => cell.position
  | none => s.length

def placeholderCount (s : Skeleton) : Nat :=
  s.chars.countP isPlaceholder

end Skeleton

end Formulary
