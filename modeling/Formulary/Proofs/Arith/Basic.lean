import Formulary.Decimal
import Formulary.Proofs.Expr.Grammar

/-! # Arithmetic on numerals

Trees of the four operations, floor division and modulo over natural numbers in decimal digits, with
their values as rationals and two ways to write them.
-/

namespace Formulary

/-- A natural number in decimal digits. -/
structure Numeral where
  digits : List Char
  nonempty : digits ≠ []
  isDigit : ∀ c ∈ digits, c.isDigit = true

namespace Numeral

def ofDigit (c : Char) (h : c.isDigit = true) : Numeral :=
  ⟨[c], List.cons_ne_nil c [], fun _ hd => List.mem_singleton.1 hd ▸ h⟩

def value (n : Numeral) : Rat :=
  (Decimal.value n.digits : Nat)

end Numeral

inductive ArithOp where
  | add
  | sub
  | mul
  | div
  | floorDiv
  | mod
deriving DecidableEq, Repr

namespace ArithOp

def binOp : ArithOp → BinOp
  | add => .add
  | sub => .sub
  | mul => .mul
  | div => .div
  | floorDiv => .floorDiv
  | mod => .mod

/-- What the operator computes on rationals; nothing if the divisor is zero. -/
def result? (x y : Rat) : ArithOp → Option Rat
  | add => some (x + y)
  | sub => some (x - y)
  | mul => some (x * y)
  | div => if y = 0 then none else some (x / y)
  | floorDiv => if y = 0 then none else some (x / y).floor
  | mod => if y = 0 then none else some (x - y * (x / y).floor)

/-- Is the right operand a divisor? -/
def divides : ArithOp → Bool
  | add | sub | mul => false
  | div | floorDiv | mod => true

theorem result?_eq_none_iff {op : ArithOp} {x y : Rat} :
    op.result? x y = none ↔ op.divides = true ∧ y = 0 := by
  cases op <;> simp [result?, divides]

end ArithOp

inductive Arith where
  | numeral (n : Numeral)
  | node (op : ArithOp) (left right : Arith)

/-- Two ways to write a tree. -/
inductive Layout where
  /-- Brackets around every operation, and spaces around its operator. -/
  | full
  /-- No spaces, and brackets only where the grouping needs them. -/
  | minimal
deriving DecidableEq, Repr

namespace Arith

/-- The value of a tree; nothing if some divisor is zero. -/
def value? : Arith → Option Rat
  | numeral n => some n.value
  | node op a b => do
    let x ← a.value?
    let y ← b.value?
    op.result? x y

/-- The divisors, wherever they stand. -/
def divisors : Arith → List Arith
  | numeral _ => []
  | node op a b => a.divisors ++ b.divisors ++ if op.divides then [b] else []

theorem value?_eq_none_iff (t : Arith) :
    t.value? = none ↔ ∃ d ∈ t.divisors, d.value? = some 0 := by
  induction t with
  | numeral n => simp [value?, divisors]
  | node op a b iha ihb =>
    have divisor : (∃ d ∈ if op.divides then [b] else [], d.value? = some 0) ↔
        op.divides = true ∧ b.value? = some 0 := by
      cases op.divides <;> simp
    simp only [divisors, List.mem_append, or_and_right, exists_or, ← iha, ← ihb, divisor, value?]
    cases a.value? with
    | none => simp
    | some x =>
      cases b.value? with
      | none => simp
      | some y => simp [ArithOp.result?_eq_none_iff]

/-- The precedence of the operator at the root; numerals hold together tightest. -/
def level : Arith → Level
  | numeral _ => .primary
  | node op _ _ => op.binOp.level

/-- The number of numerals. -/
def size : Arith → Nat
  | numeral _ => 1
  | node _ a b => a.size + b.size

/-- The numerals from left to right. -/
def numerals : Arith → List Numeral
  | numeral n => [n]
  | node _ a b => a.numerals ++ b.numerals

theorem length_numerals (t : Arith) : t.numerals.length = t.size := by
  induction t with
  | numeral n => rfl
  | node op a b iha ihb => rw [numerals, List.length_append, iha, ihb, size]

end Arith

namespace Layout

/-- A text, in brackets if need be. -/
def wrap (brackets : Bool) (text : List Char) : List Char :=
  if brackets then '(' :: text ++ [')'] else text

/-- Needs the left operand brackets?  It does if it holds together less than the operation. -/
def wrapsLeft (op : ArithOp) (a : Arith) : Bool :=
  !decide (op.binOp.level ≤ a.level)

/-- Needs the right operand brackets?  It does unless it holds together more than the operation. -/
def wrapsRight (op : ArithOp) (b : Arith) : Bool :=
  decide (b.level ≤ op.binOp.level)

/-- The text of a tree. -/
def text : Layout → Arith → List Char
  | _, .numeral n => n.digits
  | full, .node op a b =>
    wrap true (text full a ++ ' ' :: op.binOp.symbol ++ ' ' :: text full b)
  | minimal, .node op a b =>
    wrap (wrapsLeft op a) (text minimal a) ++ op.binOp.symbol ++
      wrap (wrapsRight op b) (text minimal b)

/-- A tree, in brackets if need be. -/
def grouped (brackets : Bool) (e : Expr) : Expr :=
  if brackets then .group e else e

/-- The expression that a text is read as, when its first token has index `k`. -/
def expr (l : Layout) (k : Nat) : Arith → Expr
  | .numeral _ => .operand k
  | .node op a b =>
    match l with
    | full => .group (.binary op.binOp (expr full k a) (expr full (k + a.size) b))
    | minimal =>
      .binary op.binOp (grouped (wrapsLeft op a) (expr minimal k a))
        (grouped (wrapsRight op b) (expr minimal (k + a.size) b))

/-- Does the text stay within the limits of the reader: two hundred brackets open at once, and five
hundred and twelve nodes on a path of its tree? -/
structure WithinLimits (l : Layout) (t : Arith) : Prop where
  nesting : ∀ p, p <+: l.text t → p.count '(' ≤ p.count ')' + 200
  height : (l.expr 0 t).height ≤ 512

/-- A short text cannot have too many brackets open. -/
theorem withinLimits_of_length_le {l : Layout} {t : Arith} (htext : (l.text t).length ≤ 200)
    (hheight : (l.expr 0 t).height ≤ 512) : l.WithinLimits t := by
  refine ⟨fun p hp => ?_, hheight⟩
  have count : p.count '(' ≤ p.length := List.count_le_length
  have length : p.length ≤ (l.text t).length := hp.length_le
  omega

/-! ## The expression of a text -/

theorem tokenOrder_grouped (b : Bool) (e : Expr) : (grouped b e).tokenOrder = e.tokenOrder := by
  cases b <;> rfl

theorem tokenOrder_expr (l : Layout) (k : Nat) (t : Arith) :
    (l.expr k t).tokenOrder = List.range' k t.size := by
  induction t generalizing k with
  | numeral n => rfl
  | node op a b iha ihb =>
    have split : List.range' k (a.size + b.size) =
        List.range' k a.size ++ List.range' (k + a.size) b.size := by
      rw [List.range'_append_1]
    cases l <;> simp only [expr, Expr.tokenOrder, tokenOrder_grouped, iha, ihb, Arith.size, split]

theorem level_expr_minimal (k : Nat) (t : Arith) : (minimal.expr k t).level = t.level := by
  cases t <;> rfl

theorem primary_le_level_expr_full (k : Nat) (t : Arith) : .primary ≤ (full.expr k t).level := by
  cases t <;> exact Level.le_refl _

theorem wellFormed_grouped {b : Bool} {e : Expr} (h : e.WellFormed) : (grouped b e).WellFormed := by
  cases b <;> exact h

theorem wellFormed_expr (l : Layout) (k : Nat) (t : Arith) : (l.expr k t).WellFormed := by
  induction t generalizing k with
  | numeral n => trivial
  | node op a b iha ihb =>
    cases l with
    | full =>
      have tight : ∀ {l' : Level} {k t}, l' ≤ (full.expr k t).level := fun {l'} =>
        Level.le_trans (Level.le_primary l') (primary_le_level_expr_full _ _)
      exact ⟨⟨iha k, tight⟩, ihb _, tight⟩
    | minimal =>
      have left : op.binOp.leftLevel ≤ (grouped (wrapsLeft op a) (minimal.expr k a)).level := by
        cases h : wrapsLeft op a with
        | true => exact Level.le_primary _
        | false =>
          have : op.binOp.level ≤ a.level := by simpa [wrapsLeft] using h
          rw [grouped, if_neg Bool.false_ne_true, level_expr_minimal]
          cases op <;> exact this
      have right : op.binOp.rightLevel ≤
          (grouped (wrapsRight op b) (minimal.expr (k + a.size) b)).level := by
        cases h : wrapsRight op b with
        | true => exact Level.le_primary _
        | false =>
          have : ¬b.level ≤ op.binOp.level := by simpa [wrapsRight] using h
          rw [grouped, if_neg Bool.false_ne_true, level_expr_minimal]
          revert this
          cases op <;> cases b.level <;> decide
      exact ⟨⟨wellFormed_grouped (iha k), left⟩, wellFormed_grouped (ihb _), right⟩

end Layout

end Formulary
