import Formulary.Function.Basic
import Mathlib.Algebra.Order.Field.Rat
import Mathlib.Data.Nat.Size
import Mathlib.Data.Rat.Floor

/-! # Exact arithmetic

On exact numbers the operators compute what they compute on rationals, as long as powers stay within
their limits, and `min`, `max` and `abs` do so without limits.  Powers by squaring are powers.
-/

namespace Formulary

namespace Number

/-! ## Powers -/

theorem powerFrom_eq (acc base : Rat) (n : Nat) : powerFrom acc base n = acc * base ^ n := by
  induction n using Nat.strong_induction_on generalizing acc base with
  | _ n ih =>
    rw [powerFrom]
    by_cases hn : n = 0
    · rw [if_pos hn, hn, pow_zero, mul_one]
    · -- the powers still to be used are those of the square, half as many
      have square : (base * base) ^ (n / 2) = base ^ (2 * (n / 2)) := by rw [pow_mul, pow_two]
      rw [if_neg hn, ih (n / 2) (Nat.div_lt_self (Nat.pos_of_ne_zero hn) one_lt_two), square]
      rcases Nat.mod_two_eq_zero_or_one n with h | h
      · have half : 2 * (n / 2) = n := by omega
        rw [if_neg (by omega), half]
      · have half : 2 * (n / 2) + 1 = n := by omega
        rw [if_pos h, mul_assoc, ← pow_succ', half]

theorem rationalPower_eq (base : Rat) (n : Int) : rationalPower base n = base ^ n := by
  cases n with
  | ofNat n => rw [rationalPower, powerFrom_eq, one_mul, Int.ofNat_eq_natCast, zpow_natCast]
  | negSucc n => rw [rationalPower, powerFrom_eq, one_mul, one_div, zpow_negSucc]

theorem bitLength_eq_size (n : Nat) : bitLength n = n.size := by
  unfold bitLength
  split
  · next h => rw [h, Nat.size_zero]
  · next h =>
    refine le_antisymm ?_ (Nat.size_le.2 Nat.lt_log2_self)
    exact Nat.lt_size.2 (Nat.log2_self_le h)

/-- A power that is computed exactly: its exponent is an integer within the limit, and so is the
number of bits that the result may take. -/
structure PowerLimits (base e : Rat) : Prop where
  integer : e.den = 1
  exponent : e.num.natAbs ≤ 4096
  bits : max base.num.natAbs.size base.den.size * e.num.natAbs ≤ 65536

instance (base e : Rat) : Decidable (PowerLimits base e) :=
  decidable_of_iff (e.den = 1 ∧ e.num.natAbs ≤ 4096 ∧
      max base.num.natAbs.size base.den.size * e.num.natAbs ≤ 65536)
    ⟨fun h => ⟨h.1, h.2.1, h.2.2⟩, fun h => ⟨h.integer, h.exponent, h.bits⟩⟩

theorem exactExponent?_eq {base e : Rat} (h : PowerLimits base e) :
    exactExponent? base e = some e.num := by
  refine if_pos ⟨h.integer, h.exponent, ?_⟩
  rw [bitLength_eq_size, bitLength_eq_size]
  exact h.bits

end Number

/-! ## Operators -/

namespace BinOp

/-- What the operator computes on rationals: nothing if a divisor is zero, if zero has a negative
exponent, or if an exponent is not an integer. -/
def result? (x y : Rat) : BinOp → Option Rat
  | add => some (x + y)
  | sub => some (x - y)
  | mul => some (x * y)
  | div => if y = 0 then none else some (x / y)
  | floorDiv => if y = 0 then none else some ⌊x / y⌋
  | mod => if y = 0 then none else some (x - y * ⌊x / y⌋)
  | pow => if y.den ≠ 1 ∨ x = 0 ∧ y < 0 then none else some (x ^ y.num)

/-- Is the right operand a divisor? -/
def divides : BinOp → Bool
  | div | floorDiv | mod => true
  | add | sub | mul | pow => false

/-- Does the operator compute nothing, because a divisor is zero or zero has a negative exponent? -/
def Singular (x y : Rat) (op : BinOp) : Prop :=
  op.divides = true ∧ y = 0 ∨ op = pow ∧ x = 0 ∧ y < 0

/-- Why the operator computes nothing. -/
def fault : BinOp → ArithmeticFault
  | pow => .zeroToNegative
  | op => .divisionByZero op

theorem Singular.result?_eq_none {op : BinOp} {x y : Rat} (h : op.Singular x y) :
    op.result? x y = none := by
  rcases h with ⟨hop, rfl⟩ | ⟨rfl, hxy⟩
  · cases op with
    | div | floorDiv | mod => rw [result?, if_pos rfl]
    | add | sub | mul | pow => cases hop
  · rw [result?, if_pos (.inr hxy)]

end BinOp

open Number (PowerLimits)

theorem Number.divisor_exact (op : BinOp) (y : Rat) (k : Except Error Number) :
    divisor op (.exact y) k = if y = 0 then .error (.arithmetic (.divisionByZero op)) else k := by
  simp [divisor, isZero]

/-- Exact operands give what the operator computes on rationals, or fail at a singularity. -/
theorem Number.binary_exact {op : BinOp} {x y : Rat} (h : op = .pow → PowerLimits x y) :
    (∃ v, op.result? x y = some v ∧ binary op (.exact x) (.exact y) = .ok (.exact v)) ∨
      op.Singular x y ∧ binary op (.exact x) (.exact y) = .error (.arithmetic op.fault) := by
  cases op with
  | add | sub | mul => exact .inl ⟨_, rfl, rfl⟩
  | div | floorDiv | mod =>
    by_cases hy : y = 0
    · exact .inr ⟨.inl ⟨rfl, hy⟩, (divisor_exact _ y _).trans (if_pos hy)⟩
    · exact .inl ⟨_, if_neg hy, (divisor_exact _ y _).trans (if_neg hy)⟩
  | pow =>
    have computed : binary .pow (.exact x) (.exact y) = exactPower x y.num := by
      simp only [binary, Number.pow, exactExponent?_eq (h rfl)]
    have negative : (x = 0 ∧ y.num < 0) ↔ x = 0 ∧ y < 0 := and_congr_right fun _ => Rat.num_neg
    rw [computed, exactPower, rationalPower_eq]
    by_cases hpole : x = 0 ∧ y < 0
    · exact .inr ⟨.inr ⟨rfl, hpole⟩, if_pos (negative.2 hpole)⟩
    · refine .inl ⟨x ^ y.num, if_neg ?_, if_neg (mt negative.1 hpole)⟩
      exact not_or.2 ⟨not_not.2 (h rfl).integer, hpole⟩

/-! ## Functions -/

namespace Function

/-- Is it one of the functions that keep exact numbers exact? -/
def KeepsExact (f : Function) : Prop :=
  f = min ∨ f = max ∨ f = abs

/-- What these functions compute on rationals. -/
def result? : Function → List Rat → Option Rat
  | min, xs => xs.min?
  | max, xs => xs.max?
  | abs, [x] => some |x|
  | _, _ => none

theorem least_exact (x : Rat) (xs : List Rat) :
    least (.exact x) (xs.map .exact) = .exact (xs.foldl Min.min x) := by
  induction xs generalizing x with
  | nil => rfl
  | cons y xs ih =>
    have step : (if (Number.exact y).lessThan (.exact x) then Number.exact y else .exact x) =
        .exact (Min.min x y) := by
      by_cases h : y < x
      · simp [Number.lessThan, h, min_eq_right h.le]
      · simp [Number.lessThan, h, min_eq_left (not_lt.1 h)]
    rw [List.foldl_cons, ← ih, ← step]
    rfl

theorem greatest_exact (x : Rat) (xs : List Rat) :
    greatest (.exact x) (xs.map .exact) = .exact (xs.foldl Max.max x) := by
  induction xs generalizing x with
  | nil => rfl
  | cons y xs ih =>
    have step : (if (Number.exact x).lessThan (.exact y) then Number.exact y else .exact x) =
        .exact (Max.max x y) := by
      by_cases h : x < y
      · simp [Number.lessThan, h, max_eq_right h.le]
      · simp [Number.lessThan, h, max_eq_left (not_lt.1 h)]
    rw [List.foldl_cons, ← ih, ← step]
    rfl

theorem abs_exact (x : Rat) : (Number.exact x).abs = .exact |x| := by
  rw [Number.abs, Rat.abs]
  split
  · next h => rw [abs_of_nonneg h]
  · next h => rw [abs_of_neg (not_le.1 h)]

/-- Exact arguments give what the function computes on rationals. -/
theorem apply_exact {f : Function} (hf : f.KeepsExact) (unit : AngleUnit) {xs : List Rat}
    (h : f.accepts xs.length = true) :
    ∃ v, f.result? xs = some v ∧ f.apply unit (xs.map .exact) = .ok (.exact v) := by
  rcases hf with rfl | rfl | rfl
  · cases xs with
    | nil => cases h
    | cons x xs => exact ⟨_, rfl, congrArg Except.ok (least_exact x xs)⟩
  · cases xs with
    | nil => cases h
    | cons x xs => exact ⟨_, rfl, congrArg Except.ok (greatest_exact x xs)⟩
  · obtain ⟨x, rfl⟩ : ∃ x, xs = [x] := List.length_eq_one_iff.1 (beq_iff_eq.1 h)
    exact ⟨_, rfl, congrArg Except.ok (abs_exact x)⟩

end Function

end Formulary
