import Formulary.Proofs.Expr.Trim

/-! # Drawings from right to left

A drawing is read back from its end.  There every tree shows what it is by its last characters, and
what stands to the left of a tree decides whether the tree goes on.
-/

namespace Formulary

open Glyph (plain)

/-- The placeholders of the tokens, and how their calls are drawn. -/
structure Hand where
  place : Nat → Char
  style : Nat → CallStyle

/-- A text from right to left, in glyphs. -/
def backText (cs : List Char) : List Glyph :=
  (cs.map plain).reverse

theorem backText_append (cs ds : List Char) : backText (cs ++ ds) = backText ds ++ backText cs := by
  rw [backText, List.map_append, List.reverse_append]
  rfl

namespace Hand

variable (h : Hand)

def token (i : Nat) : Glyph :=
  ⟨h.place i, some i⟩

/-- A drawing in glyphs, with the options used when none are given. -/
def draw (e : Expr) : List Glyph :=
  e.write (fun c => [plain c]) (fun i => [h.token i]) h.style .standard false

/-- A drawing from right to left. -/
def back (e : Expr) : List Glyph :=
  (h.draw e).reverse

/-- Drawings from right to left, with commas between them.  The last tree comes first. -/
def backItems : List Expr → List Glyph
  | [] => []
  | e :: es => h.back e ++ if es.isEmpty then [] else backText ", ".toList ++ backItems es

end Hand

namespace BinOp

/-- Is the operator written between its operands? -/
def IsJoint (op : BinOp) : Prop :=
  op = .add ∨ op = .sub ∨ op = .mul ∨ op = .mod

end BinOp

namespace Hand

open Formulary.Expr

variable (h : Hand)

private theorem reverse_inked (cs : List Char) :
    (inked (fun c => [plain c]) cs).reverse = backText cs := by
  rw [inked, ← List.map_eq_flatMap]
  rfl

theorem back_group (x : Expr) :
    h.back (group x) = backText [')'] ++ h.back x ++ backText ['('] := by
  simp [back, draw, write, backText]

theorem back_unary (s : Sign) (x : Expr) : h.back (unary s x) = h.back x ++ [plain s.symbol] := by
  simp [back, draw, write]

theorem back_joint {op : BinOp} (hop : op.IsJoint) (a b : Expr) :
    h.back (binary op a b) = h.back b ++ (backText (joint .standard op) ++ h.back a) := by
  rcases hop with rfl | rfl | rfl | rfl <;>
    simp only [back, draw, write, List.reverse_append, reverse_inked]

theorem back_pow (a b : Expr) :
    h.back (binary .pow a b) =
      backText ['\x7d'] ++ (h.back b.strip ++ (backText "^\x7b".toList ++ h.back a)) := by
  simp only [back, draw, write, List.reverse_append, reverse_inked, write_true]
  rfl

private theorem reverse_fraction (a b : Expr) :
    (inkedFraction (fun c => [plain c])
      (write (fun c => [plain c]) (fun i => [h.token i]) h.style .standard true a)
      (write (fun c => [plain c]) (fun i => [h.token i]) h.style .standard true b)).reverse =
      backText ['\x7d'] ++ (h.back b.strip ++
        (backText "\x7d\x7b".toList ++ (h.back a.strip ++ backText "\\frac\x7b".toList))) := by
  simp only [inkedFraction, List.reverse_append, reverse_inked, write_true]
  rfl

theorem back_div (a b : Expr) :
    h.back (binary .div a b) =
      backText ['\x7d'] ++ (h.back b.strip ++
        (backText "\x7d\x7b".toList ++ (h.back a.strip ++ backText "\\frac\x7b".toList))) := by
  rw [← reverse_fraction]
  simp only [back, draw, write]

theorem back_floorDiv (a b : Expr) :
    h.back (binary .floorDiv a b) =
      backText " \\right\\rfloor".toList ++ (h.back (binary .div a b) ++
        backText "\\left\\lfloor ".toList) := by
  rw [back_div, ← reverse_fraction]
  simp only [back, draw, write, List.reverse_append, reverse_inked]

theorem backItems_append (es : List Expr) (e : Expr) :
    h.backItems (es ++ [e]) =
      (es.flatMap fun x => h.back x ++ backText ", ".toList) ++ h.back e := by
  induction es with
  | nil => simp [backItems]
  | cons x es ih => simp [backItems, ih]

theorem back_call (f : Nat) (args : List Expr) :
    h.back (call f args) =
      backText (h.style f).closing ++ (h.backItems (args.map strip).reverse ++
        (backText (h.style f).opening ++ [h.token f])) := by
  have items : (writeArgs (fun c => [plain c]) (fun i => [h.token i]) h.style .standard
      args).reverse = h.backItems (args.map strip).reverse := by
    cases args with
    | nil => rfl
    | cons a args =>
      rw [writeArgs_cons, List.map_cons, List.reverse_cons, backItems_append, List.reverse_append,
        List.reverse_flatMap, ← List.map_reverse, List.flatMap_map, write_true]
      simp only [Function.comp_def, List.reverse_append, reverse_inked, write_true]
      rfl
  simp only [back, draw, write, List.reverse_append, reverse_inked, items]
  rfl

end Hand

end Formulary
