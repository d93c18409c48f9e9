import Formulary.Bracket
import Formulary.Expr.Basic
import Formulary.Skeleton.Nesting
import Formulary.Skeleton.Stretch

/-! # From skeletons to expressions

An expression is a sum of products of powers of operands, groups and calls.  Each level cuts its
stretch at the operators of the level and hands the pieces to the next one; what stands in brackets
is read from the top again.  Sums and products group to the left.  A power groups to the right, and
a sign applies to the whole power that follows it.
-/

namespace Formulary.Expr

/-- A tree with its height, which is counted along while the tree is built. -/
@[ext] structure Branch where
  tree : Expr
  height : Nat
  height_eq : height = tree.height

namespace Branch

def operand (token : Nat) : Branch :=
  ⟨.operand token, 1, rfl⟩

def group (inner : Branch) : Branch :=
  ⟨.group inner.tree, inner.height + 1, by rw [inner.height_eq, Expr.height]⟩

def unary (sign : Sign) (operand : Branch) : Branch :=
  ⟨.unary sign operand.tree, operand.height + 1, by rw [operand.height_eq, Expr.height]⟩

def binary (op : BinOp) (left right : Branch) : Branch :=
  ⟨.binary op left.tree right.tree, 1 + max left.height right.height, by
    rw [left.height_eq, right.height_eq, Expr.height, Nat.add_comm]⟩

/-- The height of the tallest of some trees. -/
def tallest (bs : List Branch) : Nat :=
  bs.foldl (fun h b => max h b.height) 0

theorem foldl_max_height (h : Nat) (bs : List Branch) :
    bs.foldl (fun h b => max h b.height) h = max h (heightList (bs.map (·.tree))) := by
  induction bs generalizing h with
  | nil => rw [List.foldl_nil, List.map_nil, heightList, Nat.max_zero]
  | cons b bs ih => rw [List.foldl_cons, ih, b.height_eq, List.map_cons, heightList, Nat.max_assoc]

theorem tallest_eq (bs : List Branch) : tallest bs = heightList (bs.map (·.tree)) := by
  rw [tallest, foldl_max_height, Nat.zero_max]

def call (callee : Nat) (args : List Branch) : Branch :=
  ⟨.call callee (args.map (·.tree)), tallest args + 1, by rw [tallest_eq, Expr.height]⟩

end Branch

/-- The height that a tree may have. -/
def maxHeight : Nat := 512

/-- A node of the tree, refused at `position` if the tree has become too tall. -/
def node (position : Nat) (b : Branch) : Except Error Branch :=
  if b.height ≤ maxHeight then .ok b else .error (.malformed position .treeTooTall)

/-- Combines operands to the left: `((x ∘ a) ∘ b) ∘ c`.  The operands are read in order. -/
def foldLeft (operand : Stretch → Except Error Branch) (first : Branch) :
    List Stretch.Segment → Except Error Branch
  | [] => .ok first
  | seg :: segs =>
    match BinOp.ofSymbol? seg.op with
    | none => .error (.malformed seg.position .unknownOperator)
    | some op => do
      let right ← operand seg.body
      let b ← node seg.position (.binary op first right)
      foldLeft operand b segs

/-- Operands between cuts, combined to the left. -/
def leftChain (operand : Stretch → Except Error Branch) (s : Stretch) (cuts : List Span) :
    Except Error Branch := do
  let (head, segs) := s.cut cuts
  let first ← operand head
  foldLeft operand first segs

/-- Reads the stretches in order. -/
def readAll (read : Stretch → Except Error Branch) : List Stretch → Except Error (List Branch)
  | [] => .ok []
  | s :: ss => do
    let b ← read s
    let bs ← readAll read ss
    return b :: bs

/-- The arguments of a call. -/
def arguments (inner : Stretch → Except Error Branch) (s : Stretch) : Except Error (List Branch) :=
  if s.marks.isEmpty then .error (.malformed s.stop .missingArgument)
  else
    let (head, segs) := s.cut (Stretch.commas s.chars)
    readAll inner (head :: segs.map (·.body))

/-- What the brackets enclose whose opening one is at `position` and precedes `s`.  They must reach
to the end of the stretch. -/
def enclosed (position : Nat) (s : Stretch) : Except Error Stretch :=
  match Bracket.closing? '(' ')' 0 s.chars with
  | none => .error (.malformed position .openedNotClosed)
  | some k =>
    let rest := s.drop (k + 1)
    if rest.marks.isEmpty then .ok (s.take k)
    else .error (.malformed rest.start .missingOperator)

/-- An operand, a group or a call. -/
def primary (inner : Stretch → Except Error Branch) (s : Stretch) : Except Error Branch :=
  match s.marks with
  | [] => .error (.malformed s.stop .missingOperand)
  | m :: rest =>
    if m.char = '(' then do
      let body ← enclosed m.position (s.drop 1)
      let b ← inner body
      node m.position (.group b)
    else if m.isPlace then
      match rest with
      | [] => .ok (.operand m.token)
      | next :: _ =>
        if next.char = '(' then do
          let body ← enclosed next.position (s.drop 2)
          let args ← arguments inner body
          node m.position (.call m.token args)
        else .error (.malformed next.position .missingOperator)
    else .error (.malformed m.position .operandExpected)

/-- An operand of a power: signs with their positions, and what they stand before. -/
structure Signed where
  signs : List (Nat × Sign)
  base : Branch

namespace Signed

/-- The signs at the head of a stretch. -/
def leadingSigns (s : Stretch) : List (Nat × Sign) :=
  (s.marks.takeWhile (·.sign?.isSome)).filterMap fun m => m.sign?.map fun sign => (m.position, sign)

/-- Reads signs and then an operand, a group or a call. -/
def read (inner : Stretch → Except Error Branch) (s : Stretch) : Except Error Signed := do
  let signs := leadingSigns s
  let base ← primary inner (s.drop signs.length)
  return ⟨signs, base⟩

/-- Reads the operands of a power, each with the position of the operator before it. -/
def readSegments (inner : Stretch → Except Error Branch) :
    List Stretch.Segment → Except Error (List (Nat × Signed))
  | [] => .ok []
  | seg :: segs => do
    let x ← read inner seg.body
    let xs ← readSegments inner segs
    return (seg.position, x) :: xs

/-- Puts signs before an expression, the last one first. -/
def apply : List (Nat × Sign) → Branch → Except Error Branch
  | [], b => .ok b
  | (position, sign) :: signs, b => do
    let b ← apply signs b
    node position (.unary sign b)

/-- Combines powers to the right, each operand with its signs before the power that begins with
it. -/
def combine (first : Signed) : List (Nat × Signed) → Except Error Branch
  | [] => apply first.signs first.base
  | (position, next) :: rest => do
    let exponent ← combine next rest
    let b ← node position (.binary .pow first.base exponent)
    apply first.signs b

end Signed

/-- Signs and powers. -/
def power (inner : Stretch → Except Error Branch) (s : Stretch) : Except Error Branch := do
  let (head, segs) := s.cut (Stretch.powerCuts s.chars)
  let first ← Signed.read inner head
  let rest ← Signed.readSegments inner segs
  Signed.combine first rest

def product (inner : Stretch → Except Error Branch) (s : Stretch) : Except Error Branch :=
  leftChain (power inner) s (Stretch.productCuts s.chars)

/-- A sum; a comma outside the brackets of a call is refused. -/
def sum (inner : Stretch → Except Error Branch) (s : Stretch) : Except Error Branch :=
  match Stretch.commas s.chars with
  | m :: _ => .error (.malformed (s.drop m.start).start .strayComma)
  | [] => leftChain (product inner) s (Stretch.sumCuts s.chars)

/-- Reads a stretch whose brackets are nested less than `depth` deep. -/
def read : (depth : Nat) → Stretch → Except Error Branch
  | 0, s => .error (.malformed s.start .nestedTooDeep)
  | depth + 1, s => sum (read depth) s

/-- The expression of a skeleton, which must have as many placeholders as there are tokens. -/
def ofSkeleton (s : Skeleton) (tokens : List Token) : Except Error Expr :=
  if s.placeholderCount = tokens.length then do
    s.checkBrackets
    let b ← read (Skeleton.maxNesting + 1) (.ofSkeleton s)
    return b.tree
  else .error (.malformed 0 (.placeholderCount s.placeholderCount tokens.length))

end Formulary.Expr
