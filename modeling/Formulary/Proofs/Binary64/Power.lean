import Formulary.Proofs.Binary64.Infinite

/-! # Powers of floats

The sign of a power follows from the sign of the base and the parity of the exponent, whatever the
size of the power.  An infinite operand makes a power infinite, or zero, or it makes no difference.
-/

namespace Formulary.Binary64

open Float.Model
open Float.Model.UnpackedFloat

/-! ## Signs -/

theorem not_abs_lt_zero (x : Float) : ¬ x.abs < 0 := by
  rw [lt_zero_iff, unpack_abs]
  cases unpack x <;> simp [UnpackedFloat.abs]

theorem zero_lt_neg_iff {x : Float} : 0 < -x ↔ x < 0 := by
  rw [zero_lt_iff, lt_zero_iff, unpack_neg]
  rcases unpack x with (_ | _) | _ | _ | ⟨_ | _, _, _, _⟩ <;> simp [UnpackedFloat.neg]

theorem not_magnitude_lt_zero (x y : Float) : ¬ magnitude x y < 0 := by
  unfold magnitude
  split
  · decide
  split
  · split <;> decide
  · exact not_abs_lt_zero _

theorem beq_zero_of_isOdd {y : Float} (h : isOdd y = true) : (y == 0) = false := by
  refine Bool.eq_false_iff.2 fun hzero => ?_
  obtain ⟨s, hs⟩ := beq_zero_iff.1 hzero
  rw [isOdd, hs] at h
  cases h

theorem beq_one_of_hasMinus {x : Float} (h : hasMinus x = true) : (x == 1) = false := by
  refine Bool.eq_false_iff.2 fun hone => ?_
  obtain ⟨m, e, hm, hx⟩ := exists_of_beq_one hone
  rw [hasMinus, hx] at h
  cases h

/-- An odd power of a number with a minus sign is not above zero. -/
theorem not_zero_lt_power {x y : Float} (hx : hasMinus x = true) (hy : isOdd y = true) :
    ¬ 0 < power x y := by
  rw [power, beq_zero_of_isOdd hy, beq_one_of_hasMinus hx, hx, hy]
  simp only [Bool.or_false, Bool.and_self, Bool.false_eq_true, if_true, if_false]
  split
  · decide
  · rw [zero_lt_neg_iff]
    exact not_magnitude_lt_zero _ _

/-- A power is not below zero if its exponent is not odd. -/
theorem not_power_lt_zero {x y : Float} (hy : isOdd y = false) : ¬ power x y < 0 := by
  rw [power, hy, Bool.and_false]
  simp only [Bool.false_eq_true, if_false]
  split
  · decide
  split
  · decide
  · exact not_magnitude_lt_zero _ _

theorem not_zero_lt_iff {x : Float} (hx : x.isFinite = true) (h : ¬ x < 0) :
    ¬ 0 < x ↔ (x == 0) = true := by
  rw [lt_zero_iff] at h
  rw [zero_lt_iff, beq_zero_iff]
  rcases isFinite_iff.1 hx with ⟨s, hs⟩ | ⟨_ | _, m, e, hm, hs⟩
  · exact iff_of_true (by simp [hs]) ⟨s, hs⟩
  · exact absurd (.inr ⟨m, e, hm, hs⟩) h
  · exact iff_of_false (not_not.2 (.inr ⟨m, e, hm, hs⟩)) (by simp [hs])

theorem not_lt_zero_of_beq_one {x : Float} (h : (x == 1) = true) : ¬ x < 0 := by
  obtain ⟨m, e, hm, hx⟩ := exists_of_beq_one h
  rw [lt_zero_iff, hx]
  simp

/-! ## Powers of zero -/

theorem isFinite_of_zero {x : Float} (h : (x == 0) = true) : x.isFinite = true :=
  isFinite_iff.2 (.inl (beq_zero_iff.1 h))

theorem beq_one_of_zero {x : Float} (h : (x == 0) = true) : (x == 1) = false := by
  obtain ⟨s, hs⟩ := beq_zero_iff.1 h
  refine Bool.eq_false_iff.2 fun hone => ?_
  obtain ⟨m, e, hm, hx⟩ := exists_of_beq_one hone
  rw [hs] at hx
  cases hx

theorem lt_one_of_zero {x : Float} (h : (x == 0) = true) : x < 1 := by
  obtain ⟨s, hs⟩ := beq_zero_iff.1 h
  rw [lt_iff, hs]
  rfl

/-- A zero has a finite power unless the exponent is below zero. -/
theorem isFinite_power_of_zero {x y : Float} (hx : (x == 0) = true) (hy : ¬ y < 0)
    (number : y.isNaN = false) : (power x y).isFinite = true := by
  obtain ⟨s, hs⟩ := beq_zero_iff.1 hx
  have abs : x.abs = 0 := unpack_injective (by rw [unpack_abs, hs]; rfl)
  have nonneg : ¬ x < 0 := by rw [lt_zero_iff, hs]; simp
  have size : magnitude 0 y = 0 := by
    have above : (decide ((0 : Float) < 1) == decide (y < 0)) = false := by
      rw [decide_eq_false hy]
      decide
    rw [magnitude, above]
    rfl
  rw [power, abs, size, isNaN_of_isFinite (isFinite_of_zero hx), number, decide_eq_false nonneg]
  simp only [Bool.false_and, Bool.or_false, Bool.false_eq_true, if_false]
  split
  · rfl
  split
  · rfl
  · rfl

/-! ## Infinite operands -/

theorem compare_abs {x : Float} (h : ¬ x < 0) (u : UnpackedFloat) :
    (unpack x.abs).compare u = (unpack x).compare u := by
  rw [lt_zero_iff] at h
  rw [unpack_abs]
  rcases hx : unpack x with (_ | _) | _ | _ | ⟨_ | _, _, _, _⟩
  · simp [hx] at h
  · rfl
  · rfl
  · rcases u with (_ | _) | _ | _ | ⟨_ | _, _, _, _⟩ <;> rfl
  · simp_all
  · rfl

theorem abs_lt_iff {x y : Float} (h : ¬ x < 0) : x.abs < y ↔ x < y := by
  rw [lt_iff, lt_iff, compare_abs h]

theorem abs_beq {x : Float} (h : ¬ x < 0) (y : Float) : (x.abs == y) = (x == y) := by
  rw [Bool.eq_iff_iff, beq_iff, beq_iff, compare_abs h]

/-- The magnitude of a power with an infinite operand. -/
theorem magnitude_of_isInf {x y : Float} (h : x.isInf = true ∨ y.isInf = true) :
    magnitude x y =
      if x == 1 then 1
      else if decide (x < 1) == decide (y < 0) then pack (.infinity .positive)
      else 0 := by
  have extreme : (x == 0 || x.isInf || y.isInf) = true := by
    rcases h with h | h
    · rw [h, Bool.or_true, Bool.true_or]
    · rw [h, Bool.or_true]
  rw [magnitude, if_pos extreme]

/-- An infinity has infinite powers, but those to exponents below zero vanish. -/
theorem power_of_isInf {x y : Float} (hx : x.isInf = true) (hy : y.isFinite = true)
    (nonzero : (y == 0) = false) :
    (y < 0 → (power x y == 0) = true) ∧ (¬ y < 0 → (power x y).isFinite = false) := by
  have size : magnitude x.abs y = if y < 0 then 0 else pack (.infinity .positive) := by
    rw [magnitude_of_isInf (.inl (isInf_abs hx)), beq_one_of_isInf (isInf_abs hx),
      decide_eq_false (not_abs_lt_one_of_isInf hx)]
    by_cases below : y < 0 <;> simp [below]
  rw [power, nonzero, beq_one_of_isInf hx, isNaN_of_isInf hx, isNaN_of_isFinite hy,
    isFinite_of_isInf hx, size]
  simp only [Bool.or_false, Bool.and_false, Bool.false_and, Bool.false_eq_true, if_false]
  constructor
  · intro below
    rw [if_pos below]
    split <;> rfl
  · intro above
    rw [if_neg above]
    split <;> rfl

/-- An infinite exponent leaves no sign to a number that is not below zero. -/
theorem power_to_infinity {x y : Float} (hx : x.isFinite = true) (nonneg : ¬ x < 0)
    (hy : y.isInf = true) : power x y = magnitude x y := by
  have size : magnitude x.abs y = magnitude x y := by
    rw [magnitude_of_isInf (.inr hy), magnitude_of_isInf (.inr hy), abs_beq nonneg,
      decide_eq_decide.2 (abs_lt_iff nonneg)]
  rw [power, beq_zero_of_isInf hy, isNaN_of_isFinite hx, isNaN_of_isInf hy, isFinite_of_isInf hy,
    isOdd_of_isInf hy, size]
  simp only [Bool.false_or, Bool.and_false, Bool.false_and, Bool.false_eq_true, if_false]
  split
  · next one => rw [magnitude, if_pos one]
  · rfl

end Formulary.Binary64
