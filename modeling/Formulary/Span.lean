/-! # Operators at the current level

The occurrences of given texts in a stretch of characters that are not nested in brackets opened
within the stretch.  At one place the longest text wins.
-/

namespace Formulary

/-- An occurrence of an operator. -/
structure Span where
  start : Nat
  op : List Char
deriving DecidableEq, Repr

namespace Span

/-- The index just after the operator. -/
def stop (s : Span) : Nat :=
  s.start + s.op.length

/-- The longest of the candidates that `cs` begins with. -/
def longest? (candidates : List (List Char)) (cs : List Char) : Option (List Char) :=
  (candidates.filter (·.isPrefixOf cs)).foldl
    (fun best op => match best with
      | some b => if b.length ≤ op.length then some op else some b
      | none => some op) none

/-- The depth after a character; it goes below zero where a bracket is closed that was opened
before. -/
def deepen (depth : Int) (c : Char) : Int :=
  if c = '(' then depth + 1 else if c = ')' then depth - 1 else depth

/-- The operators at depth zero, when the first character has index `i`, the depth there is `depth`
and the next `skip` characters belong to an operator.  An empty operator ends the list. -/
def scan (candidates : List (List Char)) : (skip : Nat) → (depth : Int) → (i : Nat) →
    List Char → List Span
  | _, _, _, [] => []
  | skip + 1, depth, i, _ :: cs => scan candidates skip depth (i + 1) cs
  | 0, depth, i, c :: cs =>
    match if depth = 0 then longest? candidates (c :: cs) else none with
    | some [] => [⟨i, []⟩]
    | some (x :: op) => ⟨i, x :: op⟩ :: scan candidates op.length 0 (i + 1) cs
    | none => scan candidates 0 (deepen depth c) (i + 1) cs

/-- The operators at the level of `start` in the characters from `start` to `stop`, in order. -/
def findAll (candidates : List (List Char)) (text : List Char) (start stop : Nat) : List Span :=
  scan candidates 0 0 start ((text.take stop).drop start)

/-- The first operator at the level of `start` between `start` and `stop`. -/
def find? (candidates : List (List Char)) (text : List Char) (start stop : Nat) : Option Span :=
  (findAll candidates text start stop).head?

end Span

end Formulary
