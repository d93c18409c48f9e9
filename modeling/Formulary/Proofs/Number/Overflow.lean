import Formulary.Proofs.Binary64.Range
import Formulary.Proofs.Number.Power

/-! # Conversions that overflow

An exact number beyond the range of floats is converted to an infinity.  Whatever is computed from
it with a finite float is not finite and fails, unless the operator absorbs the infinity: a fraction
with such a denominator, and some powers, are finite again.
-/

namespace Formulary

namespace Number

open Binary64 (ofRat isWhole)

/-- One operand is exact and beyond the range of floats, the other is a finite float. -/
inductive Overflows : Number → Number → Prop where
  | left {r : Rat} {x : Float} :
      (ofRat r).isInf = true → x.isFinite = true → Overflows (.exact r) (.real x)
  | right {x : Float} {r : Rat} :
      x.isFinite = true → (ofRat r).isInf = true → Overflows (.real x) (.exact r)

/-- Is the result finite although an operand is beyond the range of floats?  The powers are those
of an infinity to exponents below zero, and those to an infinite exponent that shrink to zero or
are one. -/
def absorbs : BinOp → Number → Number → Bool
  | .div, .real _, .exact _ => true
  | .pow, .exact r, .real x => x < 0 && (0 < r || isWhole x)
  | .pow, .real x, .exact r => x == 1 || !decide (x < 0) && decide (x < 1) == decide (0 < r)
  | _, _, _ => false

theorem ofRat_lt_zero_of_isInf {r : Rat} (h : (ofRat r).isInf = true) :
    ofRat r < 0 ↔ ¬ 0 < r := by
  have large := Binary64.underflow_lt_limit.trans_le (Binary64.isInf_ofRat_iff.1 h)
  have positive := Binary64.underflow_pos
  rw [Binary64.ofRat_lt_zero_iff]
  rcases lt_or_ge 0 r with pos | neg
  · exact iff_of_false (by linarith) (not_not.2 pos)
  · rw [abs_of_nonpos neg] at large
    exact iff_of_true (by linarith) (not_lt.2 neg)

/-! ## Powers -/

section Powers

variable {x y : Float}

/-- Powers of an infinity are zero if the exponent is below zero, and faults otherwise. -/
theorem realPower_of_isInf (hx : x.isInf = true) (hy : y.isFinite = true)
    (nonzero : (y == 0) = false) :
    if y < 0 ∧ (¬ x < 0 ∨ isWhole y = true) then
      ∃ v : Float, realPower x y = .ok (.real v) ∧ ((v == 0) = true ∨ v = 1)
    else ∃ fault, realPower x y = .error (.arithmetic fault) := by
  obtain ⟨vanishing, unbounded⟩ := Binary64.power_of_isInf hx hy nonzero
  have regular : ¬ ((x == 0) = true ∧ y < 0) := by
    rw [Binary64.beq_zero_of_isInf hx]
    exact fun both => Bool.false_ne_true both.1
  have outcome := (realPower_eq x y).trans (if_neg regular)
  -- the sign of an infinity counts: below zero it has powers to whole exponents only
  by_cases complex : x < 0 ∧ isWhole y = false
  · rw [if_pos complex] at outcome
    rw [if_neg (by simp [complex])]
    exact ⟨_, outcome⟩
  rw [if_neg complex] at outcome
  rw [outcome]
  by_cases below : y < 0
  · have real : ¬ x < 0 ∨ isWhole y = true := by
      rw [not_and_or, Bool.not_eq_false] at complex
      exact complex
    have zero := vanishing below
    rw [if_pos ⟨below, real⟩]
    exact ⟨_, finite_eq_ok_iff.2 ⟨Binary64.isFinite_of_zero zero, rfl⟩, .inl zero⟩
  · rw [if_neg fun both => below both.1]
    exact finite_eq_error_iff.2 (unbounded below)

/-- Powers to an infinite exponent are zero or one, or else faults. -/
theorem realPower_to_infinity (hx : x.isFinite = true) (hy : y.isInf = true) :
    if (x == 1) = true ∨ ¬ x < 0 ∧ ¬ (x < 1 ↔ y < 0) then
      ∃ v : Float, realPower x y = .ok (.real v) ∧ ((v == 0) = true ∨ v = 1)
    else ∃ fault, realPower x y = .error (.arithmetic fault) := by
  have outcome := realPower_eq x y
  by_cases singular : (x == 0) = true ∧ y < 0
  · have one := Binary64.beq_one_of_zero singular.1
    have side := Binary64.lt_one_of_zero singular.1
    rw [if_pos singular] at outcome
    rw [if_neg (by simp [one, side, singular.2])]
    exact ⟨_, outcome⟩
  rw [if_neg singular] at outcome
  by_cases neg : x < 0
  · -- an infinity is not a whole number
    have one : (x == 1) = false := Bool.eq_false_iff.2 fun one =>
      Binary64.not_lt_zero_of_beq_one one neg
    rw [if_pos ⟨neg, Binary64.isWhole_of_isInf hy⟩] at outcome
    rw [if_neg (by simp [one, neg])]
    exact ⟨_, outcome⟩
  rw [if_neg fun both => neg both.1, Binary64.power_to_infinity hx neg hy,
    Binary64.magnitude_of_isInf (.inr hy)] at outcome
  rw [outcome]
  by_cases one : (x == 1) = true
  · rw [if_pos (.inl one), if_pos one]
    exact ⟨1, rfl, .inr rfl⟩
  rw [if_neg one]
  have sides : (decide (x < 1) == decide (y < 0)) = true ↔ (x < 1 ↔ y < 0) := by
    rw [beq_iff_eq, decide_eq_decide]
  by_cases grows : x < 1 ↔ y < 0
  · rw [if_neg (by simp [one, grows]), if_pos (sides.2 grows)]
    exact ⟨_, rfl⟩
  · rw [if_pos (.inr ⟨neg, grows⟩), if_neg (mt sides.1 grows)]
    exact ⟨0, rfl, .inl rfl⟩

end Powers

/-- An operation with an operand beyond the range of floats fails, unless it absorbs the infinity.
Then it gives zero or one. -/
theorem binary_of_overflows {op : BinOp} {a b : Number} (quotient : op ≠ .floorDiv)
    (remainder : op ≠ .mod) (h : Overflows a b)
    (nonzero : op = .div ∨ op = .pow → b.isZero = false) :
    if absorbs op a b then
      ∃ v : Float, binary op a b = .ok (.real v) ∧ ((v == 0) = true ∨ v = 1)
    else ∃ fault, binary op a b = .error (.arithmetic fault) := by
  cases h with
  | @left r x hr hx =>
    have infinite := Binary64.isFinite_of_isInf hr
    cases op with
    | add => exact finite_eq_error_iff.2 (Binary64.isFinite_add (.inl infinite))
    | sub => exact finite_eq_error_iff.2 (Binary64.isFinite_sub (.inl infinite))
    | mul => exact finite_eq_error_iff.2 (Binary64.isFinite_mul (.inl infinite))
    | div =>
      simp only [binary, div, divisor, nonzero (.inl rfl)]
      exact finite_eq_error_iff.2 (Binary64.isFinite_div infinite)
    | floorDiv => exact absurd rfl quotient
    | mod => exact absurd rfl remainder
    | pow =>
      have condition : absorbs .pow (.exact r) (.real x) = true ↔
          x < 0 ∧ (¬ ofRat r < 0 ∨ isWhole x = true) := by
        rw [ofRat_lt_zero_of_isInf hr, not_not]
        simp [absorbs]
      simp only [condition]
      exact realPower_of_isInf hr hx (nonzero (.inr rfl))
  | @right x r hx hr =>
    have infinite := Binary64.isFinite_of_isInf hr
    cases op with
    | add => exact finite_eq_error_iff.2 (Binary64.isFinite_add (.inr infinite))
    | sub => exact finite_eq_error_iff.2 (Binary64.isFinite_sub (.inr infinite))
    | mul => exact finite_eq_error_iff.2 (Binary64.isFinite_mul (.inr infinite))
    | div =>
      have zero := Binary64.div_infinity hx hr
      simp only [binary, div, divisor, nonzero (.inl rfl)]
      exact ⟨_, finite_eq_ok_iff.2 ⟨Binary64.isFinite_of_zero zero, rfl⟩, .inl zero⟩
    | floorDiv => exact absurd rfl quotient
    | mod => exact absurd rfl remainder
    | pow =>
      have condition : absorbs .pow (.real x) (.exact r) = true ↔
          (x == 1) = true ∨ ¬ x < 0 ∧ ¬ (x < 1 ↔ ofRat r < 0) := by
        have sides : (x < 1 ↔ 0 < r) ↔ ¬ (x < 1 ↔ ¬ 0 < r) := by tauto
        rw [ofRat_lt_zero_of_isInf hr, ← sides]
        simp [absorbs]
      simp only [condition]
      exact realPower_to_infinity hx hr

/-- A number divided by one beyond the range of floats, and the sum of the two. -/
theorem binary_of_overflows_quotient :
    (∃ v : Float, binary .div (.real 1e300) (.exact (10 ^ 309)) = .ok (.real v) ∧
        ((v == 0) = true ∨ v = 1)) ∧
      ∃ fault, binary .add (.real 1e300) (.exact (10 ^ 309)) = .error (.arithmetic fault) := by
  have overflows : Overflows (.real 1e300) (.exact (10 ^ 309)) :=
    .right (by decide +kernel) (by decide +kernel)
  have quotient : BinOp.div ≠ .floorDiv ∧ BinOp.div ≠ .mod := by decide
  have sum : BinOp.add ≠ .floorDiv ∧ BinOp.add ≠ .mod := by decide
  exact ⟨binary_of_overflows quotient.1 quotient.2 overflows fun _ => by decide +kernel,
    binary_of_overflows sum.1 sum.2 overflows fun _ => by decide +kernel⟩

/-- The quotient is near `1e-9`, but zero is computed. -/
theorem div_absorbs_overflow :
    (1e300 : Float).isFinite = true ∧ (ofRat (10 ^ 309)).isInf = true ∧
      binary .div (.real 1e300) (.exact (10 ^ 309)) = .ok (.real 0) := by
  decide +kernel

end Number

end Formulary
