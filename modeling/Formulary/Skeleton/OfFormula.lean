import Formulary.Skeleton.Basic
import Formulary.Skeleton.Piece

/-! # From formulas to skeletons

Every run of a formula with a word in it is a token, and its placeholder stands in the skeleton;
operators, brackets and commas stand there themselves.  A formula is refused if it holds a
placeholder, if two words have only blanks between them, or if there is nothing in it.
-/

namespace Formulary

/-- A word of a formula and its position. -/
structure Word where
  position : Nat
  text : List Char
deriving DecidableEq, Repr

namespace Word

def name (w : Word) : String :=
  String.ofList w.text

def kind (w : Word) : TokenKind :=
  .ofName w.name

def token (w : Word) (index : Nat) : Token :=
  ⟨w.name, index, w.position, w.kind⟩

end Word

namespace Piece

/-- The word in a piece that begins at `i`. -/
def word? (i : Nat) : Piece → Option Word
  | run text => if (Run.word text).isEmpty then none else some ⟨i + Run.indent text, Run.word text⟩
  | symbol _ => none

/-- The blank in a piece that begins at `i` where an operator is missing. -/
def gap? (i : Nat) : Piece → Option Nat
  | run text => (Run.gap? text).map (i + ·)
  | symbol _ => none

/-- The part of the skeleton for a piece that begins at `i`. -/
def cells (i : Nat) : Piece → List Cell
  | symbol text => (text.zipIdx i).map fun (c, k) => ⟨c, k⟩
  | piece => ((piece.word? i).map fun w => ⟨w.kind.placeholder, w.position⟩).toList

end Piece

namespace Skeleton

/-- The tokens of located pieces. -/
def tokensOf (pieces : List (Nat × Piece)) : List Token :=
  ((pieces.filterMap fun (i, p) => p.word? i).zipIdx).map fun (w, k) => w.token k

/-- The skeleton cells of located pieces. -/
def cellsOf (pieces : List (Nat × Piece)) : List Cell :=
  pieces.flatMap fun (i, p) => p.cells i

/-- The skeleton and the tokens of a formula. -/
def ofFormula (formula : String) : Except Error (Skeleton × List Token) :=
  let text := formula.toList
  match text.findIdx? isPlaceholder with
  | some i => .error (.malformed i .reservedCharacter)
  | none =>
    let pieces := Piece.locate 0 (Piece.ofFormula text)
    match pieces.findSome? fun (i, p) => p.gap? i with
    | some i => .error (.malformed i .blankBetweenOperands)
    | none =>
      let cells := cellsOf pieces
      if cells.isEmpty then .error (.malformed 0 .emptyFormula)
      else .ok (⟨cells, text.length⟩, tokensOf pieces)

end Skeleton

end Formulary
