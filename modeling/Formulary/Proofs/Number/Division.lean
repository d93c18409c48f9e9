import Formulary.Proofs.Binary64.Exact
import Formulary.Proofs.Number.Exact

/-! # Floor division

There is one division with a whole quotient and a remainder of the divisor's sign, and it rounds the
quotient down.  Exact numbers are divided in this way by definition.  Floats take the quotient from
the remainder, which comes from a division towards zero, and get the same for integers.
-/

namespace Formulary

/-- Taking `b` away from `a` `q` times leaves `r`, which is smaller than `b` and has its sign. -/
structure FloorDivision (a b : Rat) (q : Int) (r : Rat) : Prop where
  eq : a = b * q + r
  small : |r| < |b|
  sign : r = 0 ∨ 0 < r ∧ 0 < b ∨ r < 0 ∧ b < 0

namespace FloorDivision

variable {a b r r' : Rat} {q q' : Int}

theorem divisor_ne_zero (h : FloorDivision a b q r) : b ≠ 0 :=
  abs_pos.1 ((abs_nonneg r).trans_lt h.small)

theorem quotient_eq (h : FloorDivision a b q r) : q = ⌊a / b⌋ := by
  have hb := h.divisor_ne_zero
  have quotient : a / b = q + r / b := by
    rw [h.eq]
    field_simp
  have nonneg : 0 ≤ r / b := by
    rcases h.sign with rfl | ⟨hr, hb⟩ | ⟨hr, hb⟩
    · rw [zero_div]
    · exact (div_pos hr hb).le
    · exact (div_pos_of_neg_of_neg hr hb).le
  have below : r / b < 1 := by
    rw [← abs_of_nonneg nonneg, abs_div]
    exact (div_lt_one (abs_pos.2 hb)).2 h.small
  rw [eq_comm, Int.floor_eq_iff, quotient]
  exact ⟨le_add_of_nonneg_right nonneg, by linarith⟩

theorem remainder_eq (h : FloorDivision a b q r) : r = a - b * ⌊a / b⌋ := by
  rw [← h.quotient_eq]
  exact eq_sub_of_add_eq' h.eq.symm

theorem unique (h : FloorDivision a b q r) (h' : FloorDivision a b q' r') : q' = q ∧ r' = r :=
  ⟨h'.quotient_eq.trans h.quotient_eq.symm, h'.remainder_eq.trans h.remainder_eq.symm⟩

/-- Rounding the quotient down leaves a remainder with the sign of the divisor. -/
theorem of_floor (a : Rat) (hb : b ≠ 0) : FloorDivision a b ⌊a / b⌋ (a - b * ⌊a / b⌋) := by
  have left : a - b * ⌊a / b⌋ = b * Int.fract (a / b) := by
    rw [Int.fract, mul_sub, mul_div_cancel₀ a hb]
  refine ⟨by ring, ?_, ?_⟩
  · rw [left, abs_mul, abs_of_nonneg (Int.fract_nonneg (a / b))]
    exact mul_lt_of_lt_one_right (abs_pos.2 hb) (Int.fract_lt_one _)
  · rw [left]
    rcases (Int.fract_nonneg (a / b)).eq_or_lt with zero | pos
    · exact .inl (by rw [← zero, mul_zero])
    · rcases hb.lt_or_gt with hb | hb
      · exact .inr (.inr ⟨mul_neg_of_neg_of_pos hb pos, hb⟩)
      · exact .inr (.inl ⟨mul_pos hb pos, hb⟩)

end FloorDivision

namespace Number

/-! ## Exact numbers -/

theorem floorDiv_exact (a : Rat) {b : Rat} (hb : b ≠ 0) :
    floorDiv (.exact a) (.exact b) = .ok (.exact ⌊a / b⌋) :=
  (divisor_exact _ b _).trans (if_neg hb)

theorem mod_exact (a : Rat) {b : Rat} (hb : b ≠ 0) :
    mod (.exact a) (.exact b) = .ok (.exact (a - b * ⌊a / b⌋)) :=
  (divisor_exact _ b _).trans (if_neg hb)

/-- The quotient and the modulo of exact numbers are those of the one floor division there is, and
there is none by zero. -/
theorem floorDivision_exact (a b : Rat) :
    (b ≠ 0 → ∃ q r, floorDiv (.exact a) (.exact b) = .ok (.exact (q : Int)) ∧
      mod (.exact a) (.exact b) = .ok (.exact r) ∧ FloorDivision a b q r ∧
      ∀ q' r', FloorDivision a b q' r' → q' = q ∧ r' = r) ∧
    (b = 0 → floorDiv (.exact a) (.exact b) = .error (.arithmetic (.divisionByZero .floorDiv)) ∧
      mod (.exact a) (.exact b) = .error (.arithmetic (.divisionByZero .mod))) := by
  constructor
  · intro hb
    have division := FloorDivision.of_floor a hb
    exact ⟨_, _, floorDiv_exact a hb, mod_exact a hb, division, fun q' r' => division.unique⟩
  · intro hb
    exact ⟨(divisor_exact _ b _).trans (if_pos hb), (divisor_exact _ b _).trans (if_pos hb)⟩

/-! ## Integers as floats -/

section Real

variable {x y : Float} {a b : Int}
  (hx : Binary64.toRat? x = some (a : Rat)) (hy : Binary64.toRat? y = some (b : Rat)) (hb : b ≠ 0)
  (small : |b| ≤ 2 ^ 52)

include hx hy hb small

/-- Division towards zero leaves a remainder with the sign of the dividend.  If that is not the
divisor's, the quotient was one too large, and the divisor is added to what is left. -/
theorem exists_modulo :
    ∃ q r : Int, Binary64.toRat? (Binary64.modulo x y) = some (r : Rat) ∧
      FloorDivision a b q r := by
  obtain ⟨t, r, hr, division, below⟩ := Binary64.toRat?_remainder hx hy (by exact_mod_cast hb)
  obtain ⟨c, rfl⟩ : ∃ c : Int, r = c := ⟨a - b * t, by push_cast; linarith⟩
  have below : |c| < |b| := by exact_mod_cast below
  rw [Binary64.modulo_eq hr hy]
  split
  · next crossed =>
    norm_cast at crossed
    obtain ⟨hc, signs⟩ := crossed
    obtain ⟨closer, sign⟩ : |c + b| < |b| ∧ (0 < c + b ∧ 0 < b ∨ c + b < 0 ∧ b < 0) := by
      rcases hb.lt_or_gt with hb | hb
      · rw [abs_of_neg hb, abs_lt] at below ⊢
        omega
      · rw [abs_of_pos hb, abs_lt] at below ⊢
        omega
    have exact : Binary64.IsFloat (c + b) := by
      exact_mod_cast Binary64.isFloat_intCast (n := c + b) (by omega)
    refine ⟨t - 1, c + b, ?_, ?_, by exact_mod_cast closer, .inr (by exact_mod_cast sign)⟩
    · rw [Binary64.toRat?_add hr hy exact]
      norm_cast
    · rw [division]
      push_cast
      ring
  · next kept =>
    norm_cast at kept
    refine ⟨t, c, hr, division, by exact_mod_cast below, ?_⟩
    norm_cast
    omega

/-- What is left after taking the modulo away is a multiple of the divisor, and the quotient is an
integer.  Both are at most `2 ^ 53`, so nothing is rounded. -/
theorem exists_floorQuotient (small' : |a| ≤ 2 ^ 52) :
    ∃ q r : Int, Binary64.toRat? (floorQuotient x y) = some (q : Rat) ∧
      Binary64.toRat? (Binary64.modulo x y) = some (r : Rat) ∧ FloorDivision a b q r := by
  obtain ⟨q, r, hr, division⟩ := exists_modulo hx hy hb small
  have multiple : a - r = b * q := by
    have := division.eq
    norm_cast at this
    omega
  have below : |r| < |b| := by exact_mod_cast division.small
  have bits : |b * q| ≤ 2 ^ 53 := by
    rw [← multiple]
    have := abs_sub a r
    omega
  have quotient : |q| ≤ 2 ^ 53 := by
    refine le_trans ?_ bits
    rw [abs_mul]
    exact le_mul_of_one_le_left (abs_nonneg q) (Int.one_le_abs hb)
  have taken : Binary64.toRat? (x - Binary64.modulo x y) = some ((b * q : Int) : Rat) := by
    rw [← multiple] at bits ⊢
    rw [Binary64.toRat?_sub hx hr (by exact_mod_cast Binary64.isFloat_intCast bits)]
    norm_cast
  have divided : ((b * q : Int) : Rat) / b = q := by
    push_cast
    exact mul_div_cancel_left₀ _ (by exact_mod_cast hb)
  refine ⟨q, r, Binary64.toRat?_roundHalfAway ?_, hr, division⟩
  rw [← divided]
  refine Binary64.toRat?_div taken hy (by exact_mod_cast hb) ?_
  rw [divided]
  exact Binary64.isFloat_intCast quotient

/-- Integers of at most `2 ^ 52` have the same quotient and the same modulo as floats as they have
as exact numbers; a zero may have either sign. -/
theorem floorDivision_real (small' : |a| ≤ 2 ^ 52) :
    ∃ q r : Float, floorDiv (.real x) (.real y) = .ok (.real q) ∧
      mod (.real x) (.real y) = .ok (.real r) ∧
      Binary64.toRat? q = some (⌊(a / b : Rat)⌋ : Rat) ∧
      Binary64.toRat? r = some (a - b * ⌊(a / b : Rat)⌋ : Rat) ∧
      floorDiv (.exact a) (.exact b) = .ok (.exact ⌊(a / b : Rat)⌋) ∧
      mod (.exact a) (.exact b) = .ok (.exact (a - b * ⌊(a / b : Rat)⌋)) := by
  obtain ⟨q, r, hq, hr, division⟩ := exists_floorQuotient hx hy hb small small'
  have nonzero : (b : Rat) ≠ 0 := by exact_mod_cast hb
  have divides (op : BinOp) (k : Except Error Number) : divisor op (.real y) k = k :=
    if_neg fun zero => nonzero ((Binary64.beq_zero_iff_of_toRat? hy).1 zero)
  rw [division.quotient_eq] at hq
  rw [division.remainder_eq] at hr
  refine ⟨floorQuotient x y, Binary64.modulo x y, ?_, ?_, hq, hr,
    floorDiv_exact a nonzero, mod_exact a nonzero⟩
  · exact (divides ..).trans (if_pos (Binary64.isFinite_of_toRat? hq))
  · exact (divides ..).trans (if_pos (Binary64.isFinite_of_toRat? hr))

end Real

/-- A dividend below zero, whose remainder does not have the sign of the divisor. -/
theorem floorDivision_real_negative :
    Binary64.toRat? (-7) = some ((-7 : Int) : Rat) ∧ Binary64.toRat? 2 = some ((2 : Int) : Rat) ∧
      ∃ q r : Float, floorDiv (.real (-7)) (.real 2) = .ok (.real q) ∧
        mod (.real (-7)) (.real 2) = .ok (.real r) ∧
        Binary64.toRat? q = some (-4) ∧ Binary64.toRat? r = some 1 := by
  have dividend : Binary64.toRat? (-7) = some ((-7 : Int) : Rat) := by
    decide +kernel
  have divisor : Binary64.toRat? 2 = some ((2 : Int) : Rat) := by
    decide +kernel
  obtain ⟨q, r, hq, hr, quotient, left, -⟩ :=
    floorDivision_real dividend divisor (by decide) (by decide) (by decide)
  have floor : ⌊((-7 : Int) / (2 : Int) : Rat)⌋ = -4 := by
    decide +kernel
  rw [floor] at quotient left
  refine ⟨dividend, divisor, q, r, hq, hr, quotient.trans ?_, left.trans ?_⟩
  · norm_num
  · norm_num

end Number

end Formulary
