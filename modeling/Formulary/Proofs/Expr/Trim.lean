import Formulary.Expr.Evaluate
import Formulary.Proofs.Expr.Write

/-! # Superfluous brackets

Some brackets of a formula are not drawn: one pair around a numerator, a denominator, an exponent or
an argument.  A tree is trimmed by leaving these out.  Its drawing and its value stay the same.
-/

namespace Formulary.Expr

mutual

/-- The tree without the brackets that are not drawn. -/
def trim : Expr → Expr
  | operand i => operand i
  | group x => group x.trim
  | unary s x => unary s x.trim
  | binary op a b =>
    match op with
    | .div | .floorDiv => binary op a.trim.strip b.trim.strip
    | .pow => binary op a.trim b.trim.strip
    | .add | .sub | .mul | .mod => binary op a.trim b.trim
  | call f args => call f (trimArgs args)

def trimArgs : List Expr → List Expr
  | [] => []
  | e :: es => e.trim.strip :: trimArgs es

end

theorem strip_trim (e : Expr) : e.trim.strip = e.strip.trim := by
  cases e with
  | group x => rfl
  | binary op a b => cases op <;> rfl
  | operand | unary | call => rfl

theorem trimArgs_eq_map (args : List Expr) : trimArgs args = (args.map strip).map trim := by
  induction args with
  | nil => rfl
  | cons a args ih => rw [trimArgs, strip_trim, ih, List.map_cons, List.map_cons]

@[simp] theorem length_trimArgs (args : List Expr) : (trimArgs args).length = args.length := by
  rw [trimArgs_eq_map, List.length_map, List.length_map]

theorem WellFormed.strip {e : Expr} (h : e.WellFormed) : e.strip.WellFormed := by
  cases e with
  | group x => exact h
  | operand | unary | binary | call => exact h

theorem height_strip_le (e : Expr) : e.strip.height ≤ e.height := by
  cases e with
  | group x => exact Nat.le_succ _
  | operand | unary | binary | call => exact Nat.le_refl _

/-! ## Values -/

section Values

variable (tokens : List Token) (terms : List Term)

theorem evaluate_strip (e : Expr) : e.strip.evaluate tokens terms = e.evaluate tokens terms := by
  cases e with
  | group x => rw [strip, evaluate]
  | operand | unary | binary | call => rfl

/-- Brackets that are not drawn do not matter to the value. -/
theorem evaluate_trim (e : Expr) : e.trim.evaluate tokens terms = e.evaluate tokens terms := by
  induction e with
  | operand i => rfl
  | group x ih => rw [trim, evaluate, evaluate, ih]
  | unary s x ih => rw [trim, evaluate, evaluate, ih]
  | binary op a b iha ihb =>
    cases op <;> simp only [trim, evaluate, evaluate_strip, iha, ihb]
  | call f args ih =>
    have hargs : evaluateAll tokens terms (trimArgs args) = evaluateAll tokens terms args := by
      induction args with
      | nil => rfl
      | cons a args ihargs =>
        obtain ⟨ha, hrest⟩ := List.forall_mem_cons.1 ih
        rw [trimArgs, evaluateAll, evaluateAll, evaluate_strip, ha, ihargs hrest]
    rw [trim, evaluate, evaluate, length_trimArgs, hargs]

end Values

/-! ## Drawings -/

section Drawings

variable {α : Type} (ink : Char → List α) (place : Nat → List α) (style : Nat → CallStyle)
  (options : Options)

theorem write_true (e : Expr) :
    write ink place style options true e = write ink place style options false e.strip := by
  cases e with
  | group x => simp [write, strip]
  | operand | unary | binary | call => simp only [write, strip]

end Drawings

end Formulary.Expr
