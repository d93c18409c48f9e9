import Formulary.Proofs.Binary64.Nearest
import Formulary.Proofs.Binary64.Power
import Formulary.Proofs.Number.Exact

/-! # Powers of exact numbers

Within the limits a power is exact, and takes no more bits than they allow.  Beyond them it is the
power of the floats nearest to base and exponent, and what matters is what these floats are: an
exponent may become zero, whole or even.
-/

namespace Formulary

namespace Number

open Binary64 (ofRat power isWhole hasMinus underflow)

/-! ## Sizes -/

/-- The number of bits of the longer one of numerator and denominator. -/
def width (r : Rat) : Nat :=
  max r.num.natAbs.size r.den.size

theorem size_pow_le {a k : Nat} (n : Nat) (h : a.size ≤ k) : (a ^ n).size ≤ max 1 (k * n) := by
  rcases Nat.eq_zero_or_pos n with rfl | hn
  · rw [pow_zero, Nat.size_one]
    exact le_max_left _ _
  · refine le_trans (Nat.size_le.2 ?_) (le_max_right _ _)
    calc a ^ n < (2 ^ k) ^ n := Nat.pow_lt_pow_left (Nat.size_le.1 h) hn.ne'
      _ = 2 ^ (k * n) := (pow_mul 2 k n).symm

theorem width_pow_le (r : Rat) (n : Nat) : width (r ^ n) ≤ max 1 (width r * n) := by
  rw [width, Rat.num_pow, Rat.den_pow, Int.natAbs_pow]
  exact max_le (size_pow_le n (le_max_left _ _)) (size_pow_le n (le_max_right _ _))

theorem width_inv (r : Rat) : width r⁻¹ = width r := by
  by_cases hr : r.num = 0
  · rw [Rat.zero_of_num_zero hr, inv_zero]
  · rw [width, Rat.num_inv, Rat.den_inv, if_neg hr, Int.natAbs_mul, Int.natAbs_sign_of_ne_zero hr,
      one_mul, Int.natAbs_natCast, max_comm, width]

theorem width_zpow_le (r : Rat) (n : Int) : width (r ^ n) ≤ max 1 (width r * n.natAbs) := by
  cases n with
  | ofNat n =>
    rw [Int.ofNat_eq_natCast, zpow_natCast, Int.natAbs_natCast]
    exact width_pow_le r n
  | negSucc n =>
    rw [zpow_negSucc, width_inv, Int.natAbs_negSucc]
    exact width_pow_le r (n + 1)

/-! ## Limits -/

section Exact

variable {base e : Rat}

theorem exactExponent?_eq_none (h : ¬ PowerLimits base e) : exactExponent? base e = none := by
  refine if_neg ?_
  rw [bitLength_eq_size, bitLength_eq_size]
  rintro ⟨integer, exponent, size⟩
  exact h ⟨integer, exponent, size⟩

theorem pow_of_limits (h : PowerLimits base e) :
    pow (.exact base) (.exact e) =
      if base = 0 ∧ e < 0 then .error (.arithmetic .zeroToNegative)
      else .ok (.exact (base ^ e.num)) := by
  simp only [pow, exactExponent?_eq h, exactPower, rationalPower_eq, Rat.num_neg]

theorem pow_of_not_limits (h : ¬ PowerLimits base e) :
    pow (.exact base) (.exact e) = realPower (ofRat base) (ofRat e) := by
  simp only [pow, exactExponent?_eq_none h]

theorem PowerLimits.width_le (h : PowerLimits base e) : width (base ^ e.num) ≤ 65536 :=
  (width_zpow_le base e.num).trans (max_le (by norm_num) h.bits)

end Exact

/-! ## Powers of floats -/

theorem finite_eq_ok_iff {op : BinOp} {x : Float} {n : Number} :
    finite op x = .ok n ↔ x.isFinite = true ∧ n = .real x := by
  unfold finite
  split
  · next h => rw [Except.ok.injEq, and_iff_right h, eq_comm]
  · next h => exact iff_of_false (by simp) fun both => h both.1

theorem finite_eq_error_iff {op : BinOp} {x : Float} :
    (∃ fault, finite op x = .error (.arithmetic fault)) ↔ x.isFinite = false := by
  unfold finite
  split
  · next h => exact iff_of_false (by simp) (by simp [h])
  · next h => exact iff_of_true ⟨_, rfl⟩ (Bool.eq_false_iff.2 h)

theorem realPower_eq (x y : Float) :
    realPower x y =
      if (x == 0) = true ∧ y < 0 then .error (.arithmetic .zeroToNegative)
      else if x < 0 ∧ isWhole y = false then .error (.arithmetic .negativeToFraction)
      else finite .pow (power x y) := by
  simp only [realPower, Bool.and_eq_true, decide_eq_true_iff, Bool.not_eq_true']

/-- A power of floats that is a number is finite, and not exact. -/
theorem realPower_eq_ok {x y : Float} {n : Number} (h : realPower x y = .ok n) :
    (power x y).isFinite = true ∧ n = .real (power x y) := by
  rw [realPower_eq] at h
  split at h
  · cases h
  split at h
  · cases h
  · exact finite_eq_ok_iff.1 h

/-! ## Powers of exact numbers -/

/-- A power of exact numbers is exact if and only if it is within the limits and its base is not
zero under a negative exponent.  Then it is the power of rationals, and takes no more bits than the
limit. -/
theorem pow_exact (base e : Rat) :
    ((∃ v, pow (.exact base) (.exact e) = .ok (.exact v)) ↔
      PowerLimits base e ∧ ¬ (base = 0 ∧ e < 0)) ∧
    (∀ v, pow (.exact base) (.exact e) = .ok (.exact v) →
      v = base ^ e.num ∧ v.num.natAbs.size ≤ 65536 ∧ v.den.size ≤ 65536) ∧
    (PowerLimits base e → base = 0 → e < 0 →
      pow (.exact base) (.exact e) = .error (.arithmetic .zeroToNegative)) := by
  by_cases h : PowerLimits base e
  · rw [pow_of_limits h]
    by_cases pole : base = 0 ∧ e < 0
    · rw [if_pos pole]
      exact ⟨iff_of_false (by simp) fun both => both.2 pole, by simp, fun _ _ _ => rfl⟩
    · rw [if_neg pole]
      refine ⟨iff_of_true ⟨_, rfl⟩ ⟨h, pole⟩, ?_, fun _ hbase he => absurd ⟨hbase, he⟩ pole⟩
      rintro v ⟨⟩
      exact ⟨rfl, (le_max_left _ _).trans h.width_le, (le_max_right _ _).trans h.width_le⟩
  · have inexact : ∀ v, pow (.exact base) (.exact e) ≠ .ok (.exact v) := by
      intro v hv
      rw [pow_of_not_limits h] at hv
      exact absurd (realPower_eq_ok hv).2 (by simp)
    exact ⟨iff_of_false (fun ⟨v, hv⟩ => inexact v hv) fun both => h both.1,
      fun v hv => absurd hv (inexact v), fun limits => absurd limits h⟩

/-- The inverse of a cube. -/
theorem pow_exact_cube :
    pow (.exact (-2 / 3)) (.exact (-3)) = .ok (.exact (-27 / 8)) := by
  have limits : PowerLimits (-2 / 3) (-3) := by decide +kernel
  obtain ⟨v, hv⟩ := (pow_exact (-2 / 3) (-3)).1.2 ⟨limits, by norm_num⟩
  have value : v = -27 / 8 := by
    rw [((pow_exact (-2 / 3) (-3)).2.1 v hv).1]
    decide +kernel
  rw [hv, value]

/-! ## Rounded powers -/

theorem realPower_ofRat (base e : Rat) :
    realPower (ofRat base) (ofRat e) =
      if |base| ≤ underflow ∧ e < -underflow then .error (.arithmetic .zeroToNegative)
      else if base < -underflow ∧ isWhole (ofRat e) = false then
        .error (.arithmetic .negativeToFraction)
      else finite .pow (power (ofRat base) (ofRat e)) := by
  simp only [realPower_eq, Binary64.beq_zero_ofRat_iff, Binary64.ofRat_lt_zero_iff]

section Rounded

variable {base e : Rat}

theorem not_limits_of_abs_lt_one (he : |e| < 1) (nonzero : e ≠ 0) : ¬ PowerLimits base e := by
  intro h
  have whole : (e.num : Rat) = e := Rat.coe_int_num_of_den_eq_one h.integer
  have least : (1 : Rat) ≤ |e| := by
    rw [← whole]
    exact_mod_cast Int.one_le_abs (Rat.num_ne_zero.2 nonzero)
  exact absurd he (not_lt.2 least)

/-- Zero has no power to an exponent below zero, unless the exponent is rounded to zero. -/
theorem pow_zero_negative (he : e < 0) :
    pow (.exact 0) (.exact e) =
      if e < -underflow then .error (.arithmetic .zeroToNegative) else .ok (.real 1) := by
  by_cases h : PowerLimits 0 e
  · -- within the limits the exponent is whole, so it is at least one in size
    have large : e < -underflow := by
      by_contra small
      refine not_limits_of_abs_lt_one ?_ he.ne h
      rw [abs_of_neg he]
      linarith [Binary64.underflow_lt_one]
    rw [pow_of_limits h, if_pos ⟨rfl, he⟩, if_pos large]
  · have zero : |(0 : Rat)| ≤ underflow := by
      rw [abs_zero]
      exact Binary64.underflow_pos.le
    have nonneg : ¬ (0 : Rat) < -underflow := by
      linarith [Binary64.underflow_pos]
    rw [pow_of_not_limits h, realPower_ofRat]
    by_cases large : e < -underflow
    · rw [if_pos ⟨zero, large⟩, if_pos large]
    · have rounded : (ofRat e == 0) = true := by
        rw [Binary64.beq_zero_ofRat_iff, abs_of_neg he]
        linarith
      rw [if_neg (mt And.right large), if_neg (mt And.left nonneg), if_neg large, power, rounded,
        Bool.true_or, if_pos rfl]
      rfl

/-- A power of a number below zero to a fraction. -/
theorem pow_negative_fraction (hbase : base < 0) (he : e.den ≠ 1) :
    (∃ fault, pow (.exact base) (.exact e) = .error (.arithmetic fault)) ↔
      if base < -underflow then
        isWhole (ofRat e) = false ∨ (power (ofRat base) (ofRat e)).isFinite = false
      else e < -underflow := by
  have abs : |base| ≤ underflow ↔ ¬ base < -underflow := by
    rw [abs_of_neg hbase, not_lt, neg_le]
  rw [pow_of_not_limits fun h => he h.integer, realPower_ofRat]
  by_cases large : base < -underflow
  · rw [if_neg fun both => abs.1 both.1 large, if_pos large]
    by_cases whole : isWhole (ofRat e) = false
    · rw [if_pos ⟨large, whole⟩]
      exact iff_of_true ⟨_, rfl⟩ (.inl whole)
    · rw [if_neg fun both => whole both.2, finite_eq_error_iff, or_iff_right whole]
  · rw [if_neg large]
    by_cases singular : e < -underflow
    · rw [if_pos ⟨abs.2 large, singular⟩]
      exact iff_of_true ⟨_, rfl⟩ singular
    · have zero : (ofRat base == 0) = true := Binary64.beq_zero_ofRat_iff.2 (abs.2 large)
      have nonneg : ¬ ofRat e < 0 := mt Binary64.ofRat_lt_zero_iff.1 singular
      rw [if_neg fun both => singular both.2, if_neg fun both => large both.1,
        finite_eq_error_iff,
        Binary64.isFinite_power_of_zero zero nonneg (Binary64.isNaN_ofRat e)]
      exact iff_of_false (by simp) singular

/-- The sign of a power of a number below zero is that of the power of rationals, unless an odd
exponent has more bits than a float keeps. -/
theorem pow_negative_integer (hbase : base < 0) (he : e.den = 1) {n : Number}
    (h : pow (.exact base) (.exact e) = .ok n) :
    (Even e.num → n.lessThan (ofInt 0) = false) ∧
      (Odd e.num →
        ((ofInt 0).lessThan n = false ↔ e.num.natAbs < 2 ^ 53 ∨ n.isZero = true)) := by
  by_cases limits : PowerLimits base e
  · rw [pow_of_limits limits, if_neg fun both => hbase.ne both.1] at h
    cases h
    constructor
    · intro even
      exact decide_eq_false (not_lt.2 (even.zpow_nonneg base))
    · intro odd
      have small : e.num.natAbs < 2 ^ 53 := limits.exponent.trans_lt (by norm_num)
      exact iff_of_true (decide_eq_false (odd.zpow_neg hbase).not_gt) (.inl small)
  · rw [pow_of_not_limits limits] at h
    obtain ⟨finite, rfl⟩ := realPower_eq_ok h
    have exponent : ofRat e = ofRat (e.num : Rat) := by
      rw [Rat.coe_int_num_of_den_eq_one he]
    -- beyond the limits the parity that counts is that of the nearest float
    have oddness := Binary64.isOdd_ofRat_intCast e.num
    have minus : hasMinus (ofRat base) = true := Binary64.hasMinus_ofRat.2 hbase
    rw [← exponent] at oddness
    have nonneg (small : ¬ (Odd e.num ∧ e.num.natAbs < 2 ^ 53)) :
        ¬ power (ofRat base) (ofRat e) < 0 :=
      Binary64.not_power_lt_zero (Bool.eq_false_iff.2 (mt oddness.1 small))
    constructor
    · intro even
      exact decide_eq_false (nonneg fun both => Int.not_even_iff_odd.2 both.1 even)
    · intro odd
      by_cases small : e.num.natAbs < 2 ^ 53
      · have nonpos := Binary64.not_zero_lt_power minus (oddness.2 ⟨odd, small⟩)
        exact iff_of_true (decide_eq_false nonpos) (.inl small)
      · rw [or_iff_right small]
        exact decide_eq_false_iff_not.trans
          (Binary64.not_zero_lt_iff finite (nonneg fun both => small both.2))

end Rounded

/-- Beyond the limits domain and sign of a power are those of the nearest floats.  Zero has a power
to an exponent that is rounded to zero.  A number below zero has one to a fraction that is rounded
to a whole number, or if it is itself rounded to zero.  An odd exponent that does not fit a float
leaves no minus sign. -/
theorem pow_rounded (base e : Rat) :
    (base = 0 → e < 0 →
      pow (.exact base) (.exact e) =
        if e < -underflow then .error (.arithmetic .zeroToNegative) else .ok (.real 1)) ∧
    (base < 0 → e.den ≠ 1 →
      ((∃ fault, pow (.exact base) (.exact e) = .error (.arithmetic fault)) ↔
        if base < -underflow then
          isWhole (ofRat e) = false ∨ (power (ofRat base) (ofRat e)).isFinite = false
        else e < -underflow)) ∧
    (∀ n, base < 0 → e.den = 1 → pow (.exact base) (.exact e) = .ok n →
      (Even e.num → n.lessThan (ofInt 0) = false) ∧
      (Odd e.num →
        ((ofInt 0).lessThan n = false ↔ e.num.natAbs < 2 ^ 53 ∨ n.isZero = true))) := by
  refine ⟨?_, pow_negative_fraction, fun n hbase he => pow_negative_integer hbase he⟩
  rintro rfl he
  exact pow_zero_negative he

/-- Zero under a negative exponent, a root of minus two, and minus one to an odd exponent of 54
bits. -/
theorem pow_rounded_cases :
    pow (.exact 0) (.exact (-1)) = .error (.arithmetic .zeroToNegative) ∧
      (∃ fault, pow (.exact (-2)) (.exact (1 / 2)) = .error (.arithmetic fault)) ∧
      ∃ n, pow (.exact (-1)) (.exact 9007199254740993) = .ok n ∧
        (ofInt 0).lessThan n = true := by
  have small := Binary64.underflow_lt_one
  refine ⟨?_, ?_, ?_⟩
  · rw [(pow_rounded 0 (-1)).1 rfl (by norm_num), if_pos (by linarith)]
  · refine ((pow_rounded (-2) (1 / 2)).2.1 (by norm_num) (by norm_num)).2 ?_
    rw [if_pos (by linarith)]
    exact .inl (by decide +kernel)
  · have one : pow (.exact (-1)) (.exact 9007199254740993) = .ok (.real 1) := by decide +kernel
    have odd : Odd (9007199254740993 : Rat).num := by decide +kernel
    have sign := ((pow_rounded (-1) 9007199254740993).2.2 _ (by norm_num) (by decide +kernel)
      one).2 odd
    exact ⟨_, one, Bool.of_not_eq_false (mt sign.1 (by decide +kernel))⟩

/-- An exponent below zero is rounded to zero, a fraction to a whole number, and an odd number to an
even one. -/
theorem pow_of_rounded_exponents :
    ((-1 / 10 ^ 400 : Rat) < 0 ∧
        pow (.exact 0) (.exact (-1 / 10 ^ 400)) = .ok (.real 1)) ∧
      ((9007199254740992 + 1 / 2 : Rat).den ≠ 1 ∧
        pow (.exact (-1)) (.exact (9007199254740992 + 1 / 2)) = .ok (.real 1)) ∧
      ((9007199254740993 : Rat).num % 2 = 1 ∧
        pow (.exact (-1)) (.exact 9007199254740993) = .ok (.real 1)) := by
  decide +kernel

end Number

end Formulary
