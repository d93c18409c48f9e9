import Formulary.Proofs.Binary64.Range

/-! # The order of floats

Floats are compared by their values, an infinity being larger in size than every finite number.  The
two zeros have one value, and NaN has none.  Rounding keeps the order of rationals, so the
conversion does: a smaller rational never becomes a larger float, but two rationals may become one.
-/

namespace Formulary

/-! ## Rounding a quotient -/

theorem le_roundHalfEven (n d : Nat) : n / d ≤ roundHalfEven n d := by
  rw [roundHalfEven_eq]
  split_ifs <;> omega

theorem roundHalfEven_le_succ (n d : Nat) : roundHalfEven n d ≤ n / d + 1 := by
  rw [roundHalfEven_eq]
  split_ifs <;> omega

/-- A larger quotient is not rounded to less. -/
theorem roundHalfEven_mono {n d n' d' : Nat} (hd : 0 < d) (hd' : 0 < d')
    (h : n * d' ≤ n' * d) : roundHalfEven n d ≤ roundHalfEven n' d' := by
  have quotient : n / d ≤ n' / d' := by
    rw [← Nat.mul_div_mul_right n d hd', ← Nat.mul_div_mul_left n' d' hd, mul_comm d n']
    exact Nat.div_le_div_right h
  rcases quotient.lt_or_eq with less | same
  · calc roundHalfEven n d ≤ n / d + 1 := roundHalfEven_le_succ n d
      _ ≤ n' / d' := less
      _ ≤ roundHalfEven n' d' := le_roundHalfEven n' d'
  · -- the integer parts agree, so what is left decides
    have rest : n % d * d' ≤ n' % d' * d := by
      have parts := Nat.div_add_mod' n d
      have parts' := Nat.div_add_mod' n' d'
      rw [← parts, ← parts', same] at h
      nlinarith
    have half : d ≤ 2 * (n % d) → d' ≤ 2 * (n' % d') := fun hle =>
      Nat.le_of_mul_le_mul_right (by nlinarith) hd
    have more : d < 2 * (n % d) → d' < 2 * (n' % d') := fun hlt =>
      Nat.lt_of_mul_lt_mul_right (a := d) (by nlinarith)
    rw [roundHalfEven_eq, roundHalfEven_eq, same]
    split_ifs <;> omega

namespace Binary64

open Float.Model
open Float.Model.UnpackedFloat

/-! ## Values -/

/-- Where a number stands among the rationals.  An infinity stands where the numbers begin that are
too large for floats. -/
def position : UnpackedFloat → Rat
  | .finite s m e _ => s.apply m * 2 ^ e
  | .zero _ => 0
  | .infinity s => s.apply 1 * overflow
  | .notANumber => 0

theorem position_of_toRat? {x : Float} {p : Rat} (h : toRat? x = some p) :
    position (unpack x) = p := by
  unfold toRat? at h
  split at h
  · next hx =>
    rw [hx]
    exact Option.some.inj h
  · next hx =>
    rw [hx]
    exact Option.some.inj h
  · cases h
  · cases h

/-- The least mantissa of 53 bits at one exponent is not below the greatest at a smaller one. -/
theorem carry_le {e e' : Int} (h : e < e') : (2 : Rat) ^ 53 * 2 ^ e ≤ 2 ^ 52 * 2 ^ e' := by
  calc (2 : Rat) ^ 53 * 2 ^ e = 2 ^ 52 * 2 ^ (e + 1) := by
        rw [zpow_add_one₀ two_ne_zero]
        ring
    _ ≤ 2 ^ 52 * 2 ^ e' := by
        gcongr
        · exact one_le_two
        · exact h

/-- Numbers with the larger exponent are larger. -/
theorem Fits.lt_of_exponent_lt {m m' : Nat} {e e' : Int} (h : Fits m e) (h' : Fits m' e')
    (hlt : e < e') : (m : Rat) * 2 ^ e < m' * 2 ^ e' := by
  have normal : 2 ^ 52 ≤ m' := h'.lower.resolve_right fun least => by
    have := h.least
    omega
  have upper : (m : Rat) < 2 ^ 53 := by exact_mod_cast h.upper
  have lower : (2 : Rat) ^ 52 ≤ m' := by exact_mod_cast normal
  calc (m : Rat) * 2 ^ e < 2 ^ 53 * 2 ^ e := by gcongr
    _ ≤ 2 ^ 52 * 2 ^ e' := carry_le hlt
    _ ≤ m' * 2 ^ e' := by gcongr

/-- Exponents and then mantissas are compared, which is to compare values. -/
theorem Fits.compare_eq_cmp {m m' : Nat} {e e' : Int} (h : Fits m e) (h' : Fits m' e') :
    (compare e e').then (compare m m') = cmp ((m : Rat) * 2 ^ e) (m' * 2 ^ e') := by
  rcases lt_trichotomy e e' with hlt | rfl | hgt
  · rw [compare_lt_iff_lt.2 hlt, (cmp_eq_lt_iff _ _).2 (h.lt_of_exponent_lt h' hlt)]
    rfl
  · rw [compare_eq_iff_eq.2 rfl, cmp_mul_pos_right (by positivity), Nat.strictMono_cast.cmp_map_eq,
      cmp_eq_compare]
    rfl
  · rw [compare_gt_iff_gt.2 hgt, (cmp_eq_gt_iff _ _).2 (h'.lt_of_exponent_lt h hgt)]
    rfl

theorem overflow_pos : 0 < overflow := by
  rw [overflow]
  positivity

@[simp] theorem position_zero (s : UnpackedFloat.Sign) : position (.zero s) = 0 := rfl

@[simp] theorem position_infinity_negative : position (.infinity .negative) = -overflow := by
  simp [position, UnpackedFloat.Sign.apply]

@[simp] theorem position_infinity_positive : position (.infinity .positive) = overflow := by
  simp [position, UnpackedFloat.Sign.apply]

section Finite

variable {m : Nat} {e : Int} (hm : 0 < m)

theorem position_negative : position (.finite .negative m e hm) = -(m * 2 ^ e) := by
  simp [position, UnpackedFloat.Sign.apply]

theorem position_positive : position (.finite .positive m e hm) = m * 2 ^ e := by
  simp [position, UnpackedFloat.Sign.apply]

theorem position_negative_lt_zero : position (.finite .negative m e hm) < 0 := by
  rw [position_negative]
  exact neg_neg_of_pos (by positivity)

theorem zero_lt_position_positive : 0 < position (.finite .positive m e hm) := by
  rw [position_positive]
  positivity

theorem Fits.position_lt_overflow (h : Fits m e) (s : UnpackedFloat.Sign) :
    position (.finite s m e hm) < overflow := by
  cases s with
  | negative => exact (position_negative_lt_zero hm).trans overflow_pos
  | positive =>
    rw [position_positive]
    exact h.lt_overflow

theorem Fits.neg_overflow_lt_position (h : Fits m e) (s : UnpackedFloat.Sign) :
    -overflow < position (.finite s m e hm) := by
  cases s with
  | negative =>
    rw [position_negative]
    exact neg_lt_neg h.lt_overflow
  | positive => exact (neg_neg_of_pos overflow_pos).trans (zero_lt_position_positive hm)

end Finite

section Compare

variable {a b : Rat} {v : UnpackedFloat}

theorem some_lt_eq (h : a < b) : some Ordering.lt = some (cmp a b) :=
  congrArg some ((cmp_eq_lt_iff a b).2 h).symm

theorem some_gt_eq (h : b < a) : some Ordering.gt = some (cmp a b) :=
  congrArg some ((cmp_eq_gt_iff a b).2 h).symm

theorem some_eq_eq (a : Rat) : some Ordering.eq = some (cmp a a) :=
  congrArg some (cmp_self_eq_eq a).symm

theorem position_lt_zero : position (.infinity .negative) < 0 := by
  rw [position_infinity_negative]
  exact neg_neg_of_pos overflow_pos

theorem zero_lt_position : 0 < position (.infinity .positive) := by
  rw [position_infinity_positive]
  exact overflow_pos

theorem compare_zero (s : UnpackedFloat.Sign) (hv : Canonical v) (number : v.isNaN = false) :
    (UnpackedFloat.zero s).compare v = some (cmp (position (.zero s)) (position v)) := by
  cases hv with
  | notANumber => cases number
  | zero t => exact some_eq_eq 0
  | infinity t =>
    cases t with
    | negative => exact some_gt_eq position_lt_zero
    | positive => exact some_lt_eq zero_lt_position
  | finite t hm h =>
    cases t with
    | negative => exact some_gt_eq (position_negative_lt_zero hm)
    | positive => exact some_lt_eq (zero_lt_position_positive hm)

theorem compare_infinity (s : UnpackedFloat.Sign) (hv : Canonical v) (number : v.isNaN = false) :
    (UnpackedFloat.infinity s).compare v = some (cmp (position (.infinity s)) (position v)) := by
  cases s with
  | negative =>
    cases hv with
    | notANumber => cases number
    | zero t => exact some_lt_eq position_lt_zero
    | infinity t =>
      cases t with
      | negative => exact some_eq_eq (position (.infinity .negative))
      | positive => exact some_lt_eq (position_lt_zero.trans zero_lt_position)
    | finite t hm h =>
      rw [position_infinity_negative]
      exact some_lt_eq (h.neg_overflow_lt_position hm t)
  | positive =>
    cases hv with
    | notANumber => cases number
    | zero t => exact some_gt_eq zero_lt_position
    | infinity t =>
      cases t with
      | negative => exact some_gt_eq (position_lt_zero.trans zero_lt_position)
      | positive => exact some_eq_eq (position (.infinity .positive))
    | finite t hm h =>
      rw [position_infinity_positive]
      exact some_gt_eq (h.position_lt_overflow hm t)

theorem compare_negative {m : Nat} {e : Int} (hm : 0 < m) (h : Fits m e) (hv : Canonical v)
    (number : v.isNaN = false) :
    (UnpackedFloat.finite .negative m e hm).compare v =
      some (cmp (position (.finite .negative m e hm)) (position v)) := by
  have below := position_negative_lt_zero (e := e) hm
  cases hv with
  | notANumber => cases number
  | zero t => exact some_lt_eq below
  | infinity t =>
    cases t with
    | negative =>
      rw [position_infinity_negative]
      exact some_gt_eq (h.neg_overflow_lt_position hm _)
    | positive => exact some_lt_eq (below.trans zero_lt_position)
  | finite t hn k =>
    cases t with
    | negative =>
      rw [position_negative, position_negative, StrictAnti.cmp_map_eq (fun _ _ => neg_lt_neg),
        ← cmp_swap, ← h.compare_eq_cmp k]
      rfl
    | positive => exact some_lt_eq (below.trans (zero_lt_position_positive hn))

theorem compare_positive {m : Nat} {e : Int} (hm : 0 < m) (h : Fits m e) (hv : Canonical v)
    (number : v.isNaN = false) :
    (UnpackedFloat.finite .positive m e hm).compare v =
      some (cmp (position (.finite .positive m e hm)) (position v)) := by
  have above := zero_lt_position_positive (e := e) hm
  cases hv with
  | notANumber => cases number
  | zero t => exact some_gt_eq above
  | infinity t =>
    cases t with
    | negative => exact some_gt_eq (position_lt_zero.trans above)
    | positive =>
      rw [position_infinity_positive]
      exact some_lt_eq (h.position_lt_overflow hm _)
  | finite t hn k =>
    cases t with
    | negative => exact some_gt_eq ((position_negative_lt_zero hn).trans above)
    | positive =>
      rw [position_positive, position_positive, ← h.compare_eq_cmp k]
      rfl

/-- Numbers in canonical form are compared by their positions. -/
theorem Canonical.compare_eq_cmp {u : UnpackedFloat} (hu : Canonical u) (hv : Canonical v)
    (number : u.isNaN = false) (number' : v.isNaN = false) :
    u.compare v = some (cmp (position u) (position v)) := by
  cases hu with
  | notANumber => cases number
  | zero s => exact compare_zero s hv number'
  | infinity s => exact compare_infinity s hv number'
  | finite s hm h =>
    cases s with
    | negative => exact compare_negative hm h hv number'
    | positive => exact compare_positive hm h hv number'

end Compare

section Order

variable {x y : Float}

theorem lt_iff_position (hx : x.isNaN = false) (hy : y.isNaN = false) :
    x < y ↔ position (unpack x) < position (unpack y) := by
  rw [isNaN_eq] at hx hy
  rw [lt_iff, (canonical_unpack x).compare_eq_cmp (canonical_unpack y) hx hy, Option.some_inj,
    cmp_eq_lt_iff]

theorem beq_iff_position (hx : x.isNaN = false) (hy : y.isNaN = false) :
    (x == y) = true ↔ position (unpack x) = position (unpack y) := by
  rw [isNaN_eq] at hx hy
  rw [beq_iff, (canonical_unpack x).compare_eq_cmp (canonical_unpack y) hx hy, Option.some_inj,
    cmp_eq_eq_iff]

/-- NaN is neither less nor greater than anything. -/
theorem isNaN_of_lt (h : x < y) : x.isNaN = false ∧ y.isNaN = false := by
  rw [lt_iff] at h
  rw [isNaN_eq, isNaN_eq]
  cases hx : unpack x <;> cases hy : unpack y <;>
    simp_all [UnpackedFloat.compare, UnpackedFloat.isNaN]

end Order

/-! ## Conversion -/

section Mono

variable {n d n' d' : Nat} (hn : 0 < n) (hd : 0 < d) (hn' : 0 < n') (hd' : 0 < d')
  (h : (n : Rat) / d ≤ n' / d')

include hn hd hn' hd' h

theorem log2Quotient_mono : log2Quotient n d ≤ log2Quotient n' d' := by
  have lower := (log2Quotient_spec hn hd).1
  have upper := (log2Quotient_spec hn' hd').2
  have := (zpow_lt_zpow_iff_right₀ (one_lt_two (α := Rat))).1 (lower.trans_lt (h.trans_lt upper))
  omega

theorem lastPlace_mono : lastPlace n d ≤ lastPlace n' d' :=
  max_le_max_right _ (sub_le_sub_right (log2Quotient_mono hn hd hn' hd' h) _)

/-- A larger quotient is not rounded to less, also where the last place is another one. -/
theorem mantissa_mul_mono :
    (mantissa n d : Rat) * 2 ^ lastPlace n d ≤ mantissa n' d' * 2 ^ lastPlace n' d' := by
  rcases (lastPlace_mono hn hd hn' hd' h).lt_or_eq with less | same
  · have upper : (mantissa n d : Rat) ≤ 2 ^ 53 := by exact_mod_cast mantissa_le hn hd
    have normal : 2 ^ 52 ≤ mantissa n' d' := by
      have place := (scaled_lastPlace hn' hd').2.resolve_left fun least => by
        have := lastPlace_ge n d
        omega
      rw [le_div_iff₀ (by positivity)] at place
      refine (even_le_mantissa_iff hd' (by norm_num) (by norm_num)).2 (le_trans ?_ place)
      gcongr
      norm_num
    have lower : (2 : Rat) ^ 52 ≤ mantissa n' d' := by exact_mod_cast normal
    calc (mantissa n d : Rat) * 2 ^ lastPlace n d ≤ 2 ^ 53 * 2 ^ lastPlace n d := by gcongr
      _ ≤ 2 ^ 52 * 2 ^ lastPlace n' d' := carry_le less
      _ ≤ mantissa n' d' * 2 ^ lastPlace n' d' := by gcongr
  · have scale {k : Nat} (hk : 0 < k) (p : Int) : 0 < k <<< p.toNat := by
      rw [Nat.shiftLeft_eq]
      positivity
    have quotient : (n : Rat) / d / 2 ^ lastPlace n' d' ≤ n' / d' / 2 ^ lastPlace n' d' := by
      gcongr
    rw [← scaled_div, ← scaled_div,
      div_le_div_iff₀ (Nat.cast_pos.2 (scale hd _)) (Nat.cast_pos.2 (scale hd' _))] at quotient
    rw [same]
    gcongr
    rw [mantissa, mantissa, same]
    exact roundHalfEven_mono (scale hd _) (scale hd' _) (by exact_mod_cast quotient)

end Mono

/-- What the size of a rational is rounded to, be it too large for a float or not. -/
def roundedSize (r : Rat) : Rat :=
  mantissa r.num.natAbs r.den * 2 ^ lastPlace r.num.natAbs r.den

/-- What a rational is rounded to, be it too large for a float or not. -/
def rounded (r : Rat) : Rat :=
  if r < 0 then -roundedSize r else roundedSize r

theorem roundedSize_neg (r : Rat) : roundedSize (-r) = roundedSize r := by
  rw [roundedSize, Rat.num_neg_eq_neg_num, Rat.den_neg_eq_den, Int.natAbs_neg, roundedSize]

theorem roundedSize_nonneg (r : Rat) : 0 ≤ roundedSize r := by
  unfold roundedSize
  positivity

/-- What is not larger than half of the least float is rounded to zero. -/
theorem roundedSize_of_small {r : Rat} (h : |r| ≤ underflow) : roundedSize r = 0 := by
  have zero : mantissa r.num.natAbs r.den = 0 := by
    by_cases hr : r = 0
    · rw [hr]
      decide +kernel
    · rw [← natAbs_num_div_den] at h
      exact (mantissa_eq_zero_iff (Int.natAbs_pos.2 (Rat.num_ne_zero.2 hr)) r.den_pos).2 h
  rw [roundedSize, zero, Nat.cast_zero, zero_mul]

theorem rounded_of_nonneg {r : Rat} (h : 0 ≤ r) : rounded r = roundedSize r :=
  if_neg h.not_gt

theorem rounded_zero : rounded 0 = 0 := by
  rw [rounded_of_nonneg le_rfl, roundedSize_of_small (by rw [abs_zero]; exact underflow_pos.le)]

theorem rounded_neg (r : Rat) : rounded (-r) = -rounded r := by
  rcases lt_trichotomy r 0 with neg | rfl | pos
  · rw [rounded_of_nonneg (by linarith), roundedSize_neg, rounded, if_pos neg, neg_neg]
  · rw [neg_zero, rounded_zero, neg_zero]
  · rw [rounded_of_nonneg pos.le, rounded, if_pos (by linarith), roundedSize_neg]

theorem rounded_mono : Monotone rounded := by
  refine monotone_of_odd_of_monotoneOn_nonneg rounded_neg fun a ha b hb hab => ?_
  rw [rounded_of_nonneg ha, rounded_of_nonneg hb]
  rcases eq_or_lt_of_le (show 0 ≤ a from ha) with rfl | pos
  · rw [← rounded_of_nonneg le_rfl, rounded_zero]
    exact roundedSize_nonneg b
  · have positive {r : Rat} (hr : 0 < r) : 0 < r.num.natAbs :=
      Int.natAbs_pos.2 (Rat.num_ne_zero.2 hr.ne')
    refine mantissa_mul_mono (positive pos) a.den_pos (positive (pos.trans_le hab)) b.den_pos ?_
    rw [natAbs_num_div_den, natAbs_num_div_den]
    exact abs_le_abs_of_nonneg ha hab

/-- A rational is converted to what it is rounded to, or to the infinity on its side. -/
theorem position_ofRat (r : Rat) :
    position (unpack (ofRat r)) = max (-overflow) (min overflow (rounded r)) := by
  have pos := overflow_pos
  rcases unpack_ofRat r with ⟨small, h⟩ | ⟨-, m, e, hm, h, hvalue⟩ | ⟨-, h, large⟩
  · have zero : rounded r = 0 := by
      rw [rounded, roundedSize_of_small small, neg_zero, ite_self]
    rw [h, position_zero, zero, min_eq_right pos.le, max_eq_right (neg_nonpos.2 pos.le)]
  · have value : position (unpack (ofRat r)) = rounded r := by
      rw [h, position, apply_signOf, hvalue]
      rfl
    have fits := fits_of_unpack h
    have upper := fits.position_lt_overflow hm (signOf r)
    have lower := fits.neg_overflow_lt_position hm (signOf r)
    rw [← h, value] at upper lower
    rw [value, min_eq_right upper.le, max_eq_right lower.le]
  · change overflow ≤ roundedSize r at large
    rw [h, rounded, signOf]
    split
    · rw [position_infinity_negative, min_eq_right (by linarith), max_eq_left (by linarith)]
    · rw [position_infinity_positive, min_eq_left large, max_eq_right (by linarith)]

/-- The conversion keeps the order. -/
theorem position_ofRat_mono {a b : Rat} (h : a ≤ b) :
    position (unpack (ofRat a)) ≤ position (unpack (ofRat b)) := by
  rw [position_ofRat, position_ofRat]
  exact max_le_max_left _ (min_le_min_left _ (rounded_mono h))

end Binary64

end Formulary
