import Formulary.Skeleton.Basic

/-! # Balanced brackets

Before a skeleton is read, its brackets are checked: every one is matched, and no more than two
hundred are open at once.
-/

namespace Formulary.Skeleton

/-- How many brackets may be open at once. -/
def maxNesting : Nat := 200

/-- Checks the brackets of the remaining cells, when brackets are open at the given positions, the
innermost first. -/
def checkNesting : (opened : List Nat) → List Cell → Except Error Unit
  | opened, [] =>
    match opened.getLast? with
    | some position => .error (.malformed position .openedNotClosed)
    | none => .ok ()
  | opened, cell :: cells =>
    if cell.char = '(' then
      if opened.length < maxNesting then checkNesting (cell.position :: opened) cells
      else .error (.malformed cell.position .nestedTooDeep)
    else if cell.char = ')' then
      match opened with
      | _ :: opened => checkNesting opened cells
      | [] => .error (.malformed cell.position .closedNotOpened)
    else checkNesting opened cells

/-- Checks the brackets of a skeleton. -/
def checkBrackets (s : Skeleton) : Except Error Unit :=
  checkNesting [] s.cells

end Formulary.Skeleton
