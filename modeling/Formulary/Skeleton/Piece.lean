import Formulary.Text

/-! # Pieces of a formula

A formula is cut at its operators, brackets and commas.  What lies between two of them is a run.
The sign of an exponent, as in `1e-3`, does not cut.  Nothing is dropped: the pieces of a formula
are the formula.
-/

namespace Formulary

/-- A stretch of a formula. -/
inductive Piece where
  /-- Characters between operators, white space included. -/
  | run (text : List Char)
  /-- An operator, a bracket or a comma. -/
  | symbol (text : List Char)
deriving DecidableEq, Repr

namespace Piece

def text : Piece → List Char
  | run text | symbol text => text

@[simp] theorem text_run (cs : List Char) : (run cs).text = cs := rfl
@[simp] theorem text_symbol (cs : List Char) : (symbol cs).text = cs := rfl

/-- The run of the characters collected so far, the last one first; none if there are none. -/
def ofCollected : List Char → List Piece
  | [] => []
  | collected => [run collected.reverse]

/-- The characters that operators, brackets and commas are made of. -/
def isSymbolChar (c : Char) : Bool :=
  c == '+' || c == '-' || c == '*' || c == '/' || c == '%' || c == '(' || c == ')' || c == ','

/-- Is a run, given with the last character first, the beginning of a number up to the mark of its
exponent: `1e`, `2.5E`, `.5e`? -/
def awaitsExponent : List Char → Bool
  | [] => false
  | mark :: mantissa =>
    (mark == 'e' || mark == 'E') && mantissa.all (fun c => c.isDigit || c == '.') &&
      mantissa.any Char.isDigit && mantissa.count '.' ≤ 1

/-- Does the sign `c` after the collected characters belong to an exponent, when `rest` follows? -/
def isExponentSign (collected : List Char) (c : Char) (rest : List Char) : Bool :=
  (c == '+' || c == '-') && (rest.head?.any Char.isDigit) && awaitsExponent collected

/-- The pieces of a text, after the characters collected so far, the last one first. -/
def split (collected : List Char) : List Char → List Piece
  | [] => ofCollected collected
  | '*' :: '*' :: cs => ofCollected collected ++ symbol ['*', '*'] :: split [] cs
  | '/' :: '/' :: cs => ofCollected collected ++ symbol ['/', '/'] :: split [] cs
  | c :: cs =>
    if isSymbolChar c && !isExponentSign collected c cs then
      ofCollected collected ++ symbol [c] :: split [] cs
    else split (c :: collected) cs

/-- The pieces of a formula. -/
def ofFormula (formula : List Char) : List Piece :=
  split [] formula

theorem flatMap_text_ofCollected (collected : List Char) :
    (ofCollected collected).flatMap text = collected.reverse := by
  cases collected <;> simp [ofCollected]

theorem flatMap_text_split (collected cs : List Char) :
    (split collected cs).flatMap text = collected.reverse ++ cs := by
  fun_induction split collected cs <;> simp_all [flatMap_text_ofCollected]

/-- The pieces of a formula, one after the other, are the formula. -/
theorem flatMap_text_ofFormula (formula : List Char) :
    (ofFormula formula).flatMap text = formula := by
  simp [ofFormula, flatMap_text_split]

/-- Pieces with the position of each, the first one at `i`. -/
def locate (i : Nat) : List Piece → List (Nat × Piece)
  | [] => []
  | p :: ps => (i, p) :: locate (i + p.text.length) ps

end Piece

/-! ## Words of a run -/

namespace Run

/-- The number of blanks in front. -/
def indent (run : List Char) : Nat :=
  (run.takeWhile isBlank).length

/-- The characters after the blanks in front, up to the next blank. -/
def word (run : List Char) : List Char :=
  (run.dropWhile isBlank).takeWhile (!isBlank ·)

/-- What follows the first word. -/
def afterWord (run : List Char) : List Char :=
  (run.dropWhile isBlank).dropWhile (!isBlank ·)

/-- The index of the blank that separates a second word from the first. -/
def gap? (run : List Char) : Option Nat :=
  if (afterWord run).all isBlank then none else some (indent run + (word run).length)

end Run

end Formulary
