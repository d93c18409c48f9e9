import Formulary.Skeleton.Basic
import Formulary.Span

/-! # Stretches of a skeleton

What an expression is read from: some consecutive cells, each placeholder with the index of its
token, and the position of what follows, where an error about a missing operand points.  A stretch
is cut at operators of its own level, those outside its brackets.
-/

namespace Formulary

/-- A cell of a skeleton; `token` is the number of placeholders before it, which is the index of its
token if it is one. -/
structure Mark where
  char : Char
  position : Nat
  token : Nat
deriving DecidableEq, Repr

structure Stretch where
  marks : List Mark
  /-- The position in the formula of what follows. -/
  stop : Nat
deriving DecidableEq, Repr

namespace Mark

/-- The marks of cells that come after `count` placeholders. -/
def ofCells (count : Nat) : List Cell → List Mark
  | [] => []
  | cell :: cells =>
    ⟨cell.char, cell.position, count⟩ ::
      ofCells (if isPlaceholder cell.char then count + 1 else count) cells

def isPlace (m : Mark) : Bool :=
  isPlaceholder m.char

/-- The sign that the mark is. -/
def sign? (m : Mark) : Option Sign :=
  Sign.ofChar? m.char

end Mark

namespace Stretch

def ofSkeleton (s : Skeleton) : Stretch :=
  ⟨Mark.ofCells 0 s.cells, s.length⟩

def chars (s : Stretch) : List Char :=
  s.marks.map (·.char)

/-- The position of the first mark, or of what follows if there is none. -/
def start (s : Stretch) : Nat :=
  match s.marks with
  | m :: _ => m.position
  | [] => s.stop

def drop (k : Nat) (s : Stretch) : Stretch :=
  ⟨s.marks.drop k, s.stop⟩

def take (k : Nat) (s : Stretch) : Stretch :=
  ⟨s.marks.take k, (s.drop k).start⟩

@[simp] theorem chars_drop (k : Nat) (s : Stretch) : (s.drop k).chars = s.chars.drop k := by
  simp [drop, chars]

@[simp] theorem chars_take (k : Nat) (s : Stretch) : (s.take k).chars = s.chars.take k := by
  simp [take, chars]

/-- The operators that stand between operands, and the comma. -/
def levelOperators : List (List Char) :=
  [['*', '*'], ['/', '/'], ['+'], ['-'], ['*'], ['/'], ['%'], [',']]

/-- The operators of a text outside its brackets. -/
def operators (text : List Char) : List Span :=
  Span.findAll levelOperators text 0 text.length

/-- An operator, its position in the formula, and the stretch up to the next cut. -/
structure Segment where
  op : List Char
  position : Nat
  body : Stretch
deriving DecidableEq, Repr

/-- The stretch, whose first mark has index `i`, cut at spans: what comes before the first, and a
segment for each. -/
def cutFrom (i : Nat) (s : Stretch) : List Span → Stretch × List Segment
  | [] => (s, [])
  | m :: ms =>
    let tail := s.drop (m.start - i)
    let rest := cutFrom m.stop (tail.drop m.op.length) ms
    (s.take (m.start - i), ⟨m.op, tail.start, rest.1⟩ :: rest.2)

/-- The stretch cut at spans. -/
def cut (s : Stretch) (spans : List Span) : Stretch × List Segment :=
  s.cutFrom 0 spans

/-- Can an operand end with `c`? -/
def endsOperand (c : Char) : Bool :=
  isPlaceholder c || c == ')'

/-- Is there an operand just before index `i`? -/
def followsOperand (text : List Char) (i : Nat) : Bool :=
  match i with
  | 0 => false
  | i + 1 => text[i]?.any endsOperand

/-- The additions and subtractions of a text: its `+` and `-` after an operand. -/
def sumCuts (text : List Char) : List Span :=
  (operators text).filter fun m =>
    (m.op == ['+'] || m.op == ['-']) && followsOperand text m.start

/-- The multiplications and divisions of a text. -/
def productCuts (text : List Char) : List Span :=
  (operators text).filter fun m =>
    m.op == ['*'] || m.op == ['/'] || m.op == ['/', '/'] || m.op == ['%']

/-- The powers of a text. -/
def powerCuts (text : List Char) : List Span :=
  (operators text).filter (·.op == ['*', '*'])

/-- The commas of a text. -/
def commas (text : List Char) : List Span :=
  (operators text).filter (·.op == [','])

end Stretch

end Formulary
