import Formulary.Proofs.Binary64.Parts

/-! # The nearest float

A rational is divided by a power of two so that 53 bits are left in front of the point, and what is
left is rounded to an integer.  The float has the sign of the rational.  It is zero if the rational
is not larger than half of the least float, and integers of 53 bits are floats.
-/

namespace Formulary

/-! ## Rounding a quotient -/

theorem roundHalfEven_eq (n d : Nat) :
    roundHalfEven n d =
      if 2 * (n % d) < d then n / d
      else if 2 * (n % d) = d then n / d + n / d % 2
      else n / d + 1 := by
  unfold roundHalfEven
  split
  · next h => rw [if_pos (Nat.compare_eq_lt.1 h)]
  · next h =>
    have half := Nat.compare_eq_eq.1 h
    rw [if_neg half.not_lt, if_pos half]
  · next h =>
    have more := Nat.compare_eq_gt.1 h
    rw [if_neg more.not_gt, if_neg more.ne']

theorem roundHalfEven_eq_zero_iff {n d : Nat} (hd : 0 < d) : roundHalfEven n d = 0 ↔ 2 * n ≤ d := by
  rw [roundHalfEven_eq]
  rcases Nat.lt_or_ge n d with h | h
  · rw [Nat.div_eq_of_lt h, Nat.mod_eq_of_lt h]
    split
    · omega
    split
    · omega
    · omega
  · have quotient : 0 < n / d := Nat.div_pos h hd
    split
    · omega
    split
    · omega
    · omega

theorem roundHalfEven_le {n d k : Nat} (h : n < k * d) : roundHalfEven n d ≤ k := by
  have quotient : n / d < k := Nat.div_lt_of_lt_mul (by rwa [mul_comm])
  rw [roundHalfEven_eq]
  split_ifs <;> omega

@[simp] theorem roundHalfEven_one (n : Nat) : roundHalfEven n 1 = n := by
  rw [roundHalfEven_eq, Nat.mod_one, if_pos (by norm_num), Nat.div_one]

namespace Binary64

open Float.Model
open Float.Model.UnpackedFloat

/-! ## Scaled numbers -/

theorem targetExponent_eq (m : Nat) (e : Int) :
    Format.binary64.targetExponent (totalExponent m e) = max (m.log2 + e - 52) (-1074) := by
  change max (m.log2 + 1 + e - 53) (-1074) = _
  congr 1
  ring

theorem shiftToTargetExponent_self {m : Nat} {e : Int} (h : max (m.log2 + e - 52) (-1074) ≤ e) :
    shiftToTargetExponent .binary64 m e .exact = (⟨m, false, false⟩, e) := by
  have stay : (max (m.log2 + e - 52) (-1074) - e).toNat = 0 := by omega
  rw [shiftToTargetExponent, targetExponent_eq, shiftToExponent, stay]
  exact Prod.ext rfl (add_zero e)

theorem roundWithAccuracy_self {s : UnpackedFloat.Sign} {m : Nat} {e : Int} (hm : 0 < m)
    (h : max (m.log2 + e - 52) (-1074) ≤ e) :
    roundWithAccuracy .binary64 s m e .exact = .finite s m e hm := by
  have rounded : (⟨m, false, false⟩ : ExtendedMantissa).roundedMantissa = m := rfl
  rw [roundWithAccuracy, shiftToTargetExponent_self h]
  simp only [rounded, shiftToTargetExponent_self h]
  exact dif_neg hm.ne'

theorem round_zero {s : UnpackedFloat.Sign} {e : Int} (least : -1074 ≤ e) :
    UnpackedFloat.round .binary64 s 0 e = .zero s := by
  have place : decreaseExponent 0 e (Format.binary64.targetExponent (totalExponent 0 e)) =
      (0, max (e - 52) (-1074)) := by
    rw [targetExponent_eq, decreaseExponent, Nat.zero_shiftLeft, Nat.log2_zero]
    refine Prod.ext rfl ?_
    simp only
    omega
  have settled : shiftToTargetExponent .binary64 0 (max (e - 52) (-1074)) .exact =
      (⟨0, false, false⟩, max (e - 52) (-1074)) :=
    shiftToTargetExponent_self (by rw [Nat.log2_zero]; omega)
  have rounded : (⟨0, false, false⟩ : ExtendedMantissa).roundedMantissa = 0 := rfl
  rw [UnpackedFloat.round, place]
  simp only [roundWithAccuracy, settled, rounded]
  exact dif_pos trivial

/-- The number of places by which a mantissa that has fewer than 53 bits is moved up. -/
def lift (m : Nat) (e : Int) : Nat :=
  (e - max (m.log2 + e - 52) (-1074)).toNat

theorem log2_shiftLeft {m : Nat} (hm : 0 < m) (k : Nat) : (m <<< k).log2 = m.log2 + k := by
  rw [Nat.shiftLeft_eq, Nat.log2_eq_iff (by positivity), pow_add, pow_succ, pow_add]
  have lower := Nat.log2_self_le hm.ne'
  have upper := Nat.lt_log2_self (n := m)
  rw [pow_succ] at upper
  constructor
  · exact Nat.mul_le_mul_right _ lower
  · nlinarith [Nat.two_pow_pos k]

theorem round_of_lt {s : UnpackedFloat.Sign} {m : Nat} {e : Int} (hm : 0 < m) (upper : m < 2 ^ 53)
    (least : -1074 ≤ e) (h : 0 < m <<< lift m e) :
    UnpackedFloat.round .binary64 s m e =
      .finite s (m <<< lift m e) (e - lift m e) h := by
  have bits : m.log2 < 53 := (Nat.log2_lt hm.ne').2 upper
  have place : decreaseExponent m e (Format.binary64.targetExponent (totalExponent m e)) =
      (m <<< lift m e, e - lift m e) := by
    rw [targetExponent_eq]
    rfl
  rw [UnpackedFloat.round, place]
  refine roundWithAccuracy_self h ?_
  rw [log2_shiftLeft hm]
  push_cast
  unfold lift
  omega

/-- A carry into the 54th bit moves the mantissa down. -/
theorem round_carry {s : UnpackedFloat.Sign} {e : Int} (least : -1074 ≤ e) :
    UnpackedFloat.round .binary64 s (2 ^ 53) e = .finite s (2 ^ 52) (e + 1) (by decide) := by
  have target : Format.binary64.targetExponent (totalExponent (2 ^ 53) e) = e + 1 := by
    rw [targetExponent_eq, Nat.log2_two_pow]
    omega
  have stay : UnpackedFloat.round .binary64 s (2 ^ 53) e =
      roundWithAccuracy .binary64 s (2 ^ 53) e .exact := by
    have : (e - (e + 1)).toNat = 0 := by omega
    rw [UnpackedFloat.round, target, decreaseExponent, this, Int.natCast_zero, Int.sub_zero]
    rfl
  have shift : shiftToTargetExponent .binary64 (2 ^ 53) e .exact =
      (⟨2 ^ 52, false, false⟩, e + 1) := by
    have : (e + 1 - e).toNat = 1 := by omega
    rw [shiftToTargetExponent, target, shiftToExponent, this]
    rfl
  have settled : shiftToTargetExponent .binary64 (2 ^ 52) (e + 1) .exact =
      (⟨2 ^ 52, false, false⟩, e + 1) :=
    shiftToTargetExponent_self (by rw [Nat.log2_two_pow]; omega)
  have rounded : (⟨2 ^ 52, false, false⟩ : ExtendedMantissa).roundedMantissa = 2 ^ 52 := rfl
  rw [stay, roundWithAccuracy, shift]
  simp only [rounded, settled]
  exact dif_neg (by decide)

theorem lift_spec {m : Nat} {e : Int} (hm : 0 < m) (upper : m < 2 ^ 53) (least : -1074 ≤ e) :
    m <<< lift m e < 2 ^ 53 ∧ (2 ^ 52 ≤ m <<< lift m e ∨ e - lift m e = -1074) ∧
      -1074 ≤ e - lift m e := by
  have bits : m.log2 < 53 := (Nat.log2_lt hm.ne').2 upper
  have positive : m <<< lift m e ≠ 0 := by rw [Nat.shiftLeft_eq]; positivity
  have lifted := log2_shiftLeft hm (lift m e)
  have place : (lift m e : Int) = e - max (m.log2 + e - 52) (-1074) := by
    unfold lift
    omega
  refine ⟨(Nat.log2_lt positive).1 (by omega), ?_, by omega⟩
  rcases le_or_gt (m.log2 + e - 52) (-1074) with low | high
  · exact .inr (by omega)
  · exact .inl ((Nat.le_log2 positive).1 (by omega))

/-- The size from which on numbers are too large for floats. -/
def overflow : Rat := 2 ^ (1024 : Int)

theorem overflow_le {m : Nat} {e : Int} (hm : 2 ^ 52 ≤ m) (he : 971 < e) :
    overflow ≤ m * 2 ^ e := by
  have mantissa : (2 : Rat) ^ (52 : Int) ≤ m := by exact_mod_cast hm
  have exponent : (2 : Rat) ^ (972 : Int) ≤ 2 ^ e := zpow_le_zpow_right₀ one_le_two he
  have product : overflow = 2 ^ (52 : Int) * 2 ^ (972 : Int) := by
    rw [overflow, ← zpow_add₀ two_ne_zero]
    rfl
  rw [product]
  gcongr

/-- A number of 53 bits is kept as it is, or is too large. -/
theorem exists_unpack_ofScaled (s : UnpackedFloat.Sign) {m : Nat} {e : Int} (hm : 0 < m)
    (upper : m ≤ 2 ^ 53) (least : -1074 ≤ e) :
    (∃ m' e' hm', unpack (ofScaled s m e) = .finite s m' e' hm' ∧
      (m' : Rat) * 2 ^ e' = m * 2 ^ e) ∨
    unpack (ofScaled s m e) = .infinity s ∧ overflow ≤ m * 2 ^ e := by
  rcases upper.lt_or_eq with upper | rfl
  · have positive : 0 < m <<< lift m e := by rw [Nat.shiftLeft_eq]; positivity
    have value : ((m <<< lift m e : Nat) : Rat) * 2 ^ (e - lift m e) = m * 2 ^ e := by
      rw [Nat.shiftLeft_eq, zpow_sub₀ two_ne_zero, zpow_natCast]
      push_cast
      field_simp
    obtain ⟨upper', lower', least'⟩ := lift_spec hm upper least
    rw [ofScaled, round_of_lt hm upper least positive]
    rcases le_or_gt (e - lift m e) 971 with most | beyond
    · exact .inl ⟨_, _, _, unpack_pack_finite _ ⟨upper', lower', least', most⟩, value⟩
    · refine .inr ⟨unpack_pack_beyond _ beyond, ?_⟩
      rw [← value]
      exact overflow_le (lower'.resolve_right (by omega)) beyond
  · rw [ofScaled, round_carry least]
    have value : ((2 ^ 52 : Nat) : Rat) * 2 ^ (e + 1) = (2 ^ 53 : Nat) * 2 ^ e := by
      rw [zpow_add_one₀ two_ne_zero]
      push_cast
      ring
    rcases le_or_gt (e + 1) 971 with most | beyond
    · exact .inl ⟨_, _, _, unpack_pack_finite _ ⟨by norm_num, .inl le_rfl, by omega, most⟩, value⟩
    · refine .inr ⟨unpack_pack_beyond _ beyond, ?_⟩
      rw [← value]
      exact overflow_le le_rfl beyond

/-! ## Rationals -/

theorem scaled_div (n d : Nat) (e : Int) :
    ((n <<< (-e).toNat : Nat) : Rat) / (d <<< e.toNat : Nat) = n / d / 2 ^ e := by
  obtain ⟨k, rfl | rfl⟩ := e.eq_nat_or_neg
  · rw [Int.toNat_neg_natCast, Int.toNat_natCast, Nat.shiftLeft_zero, Nat.shiftLeft_eq,
      zpow_natCast, div_div]
    push_cast
    rfl
  · rw [neg_neg, Int.toNat_neg_natCast, Int.toNat_natCast, Nat.shiftLeft_zero, Nat.shiftLeft_eq,
      zpow_neg, zpow_natCast, div_inv_eq_mul, Nat.cast_mul, mul_div_right_comm]
    push_cast
    rfl

theorem two_pow_log2_le {n : Nat} (hn : 0 < n) : (2 : Rat) ^ (n.log2 : Int) ≤ n := by
  rw [zpow_natCast]
  exact_mod_cast Nat.log2_self_le hn.ne'

theorem lt_two_pow_log2 (n : Nat) : (n : Rat) < 2 ^ (n.log2 + 1 : Int) := by
  have upper : n < 2 ^ (n.log2 + 1) := Nat.lt_log2_self
  exact_mod_cast upper

theorem scaled_lt_iff {n d : Nat} {e : Int} (hd : 0 < d) :
    n <<< (-e).toNat < d <<< e.toNat ↔ (n : Rat) / d < 2 ^ e := by
  have scale : (0 : Rat) < (d <<< e.toNat : Nat) := by
    rw [Nat.shiftLeft_eq]
    positivity
  have exponent : (0 : Rat) < 2 ^ e := by positivity
  rw [← Nat.cast_lt (α := Rat), ← div_lt_one scale, scaled_div, div_lt_one exponent]

theorem log2Quotient_spec {n d : Nat} (hn : 0 < n) (hd : 0 < d) :
    (2 : Rat) ^ log2Quotient n d ≤ n / d ∧ (n : Rat) / d < 2 ^ (log2Quotient n d + 1) := by
  have hd' : (0 : Rat) < d := Nat.cast_pos.2 hd
  have lower : (2 : Rat) ^ (n.log2 - d.log2 - 1 : Int) ≤ n / d := by
    rw [le_div_iff₀ hd']
    calc (2 : Rat) ^ (n.log2 - d.log2 - 1 : Int) * d
        ≤ 2 ^ (n.log2 - d.log2 - 1 : Int) * 2 ^ (d.log2 + 1 : Int) := by
          gcongr
          exact (lt_two_pow_log2 d).le
      _ = 2 ^ (n.log2 : Int) := by
          rw [← zpow_add₀ two_ne_zero]
          congr 1
          ring
      _ ≤ n := two_pow_log2_le hn
  have upper : (n : Rat) / d < 2 ^ (n.log2 - d.log2 + 1 : Int) := by
    rw [div_lt_iff₀ hd']
    calc (n : Rat) < 2 ^ (n.log2 + 1 : Int) := lt_two_pow_log2 n
      _ = 2 ^ (n.log2 - d.log2 + 1 : Int) * 2 ^ (d.log2 : Int) := by
          rw [← zpow_add₀ two_ne_zero]
          congr 1
          ring
      _ ≤ 2 ^ (n.log2 - d.log2 + 1 : Int) * d := by
          gcongr
          exact two_pow_log2_le hd
  simp only [log2Quotient]
  split
  · next h =>
    rw [sub_add_cancel]
    exact ⟨lower, (scaled_lt_iff hd).1 h⟩
  · next h => exact ⟨not_lt.1 (mt (scaled_lt_iff hd).2 h), upper⟩

theorem lastPlace_ge (n d : Nat) : -1074 ≤ lastPlace n d :=
  le_max_right _ _

/-- What is left of `n / d` when it is divided by the power of two for its last place. -/
theorem scaled_lastPlace {n d : Nat} (hn : 0 < n) (hd : 0 < d) :
    (n : Rat) / d / 2 ^ lastPlace n d < 2 ^ 53 ∧
      (lastPlace n d = -1074 ∨ 2 ^ 52 ≤ (n : Rat) / d / 2 ^ lastPlace n d) := by
  obtain ⟨lower, upper⟩ := log2Quotient_spec hn hd
  have unit : (0 : Rat) < 2 ^ lastPlace n d := by positivity
  constructor
  · rw [div_lt_iff₀ unit, ← zpow_natCast, ← zpow_add₀ two_ne_zero]
    refine upper.trans_le (zpow_le_zpow_right₀ one_le_two ?_)
    unfold lastPlace
    push_cast
    omega
  · rcases le_or_gt (log2Quotient n d - 52) (-1074) with small | large
    · exact .inl (max_eq_right small)
    · refine .inr ?_
      rw [le_div_iff₀ unit, ← zpow_natCast, ← zpow_add₀ two_ne_zero]
      refine le_trans (zpow_le_zpow_right₀ one_le_two ?_) lower
      unfold lastPlace
      push_cast
      omega

/-- The mantissa of the float nearest to `n / d`. -/
def mantissa (n d : Nat) : Nat :=
  roundHalfEven (n <<< (-lastPlace n d).toNat) (d <<< (lastPlace n d).toNat)

theorem mantissa_le {n d : Nat} (hn : 0 < n) (hd : 0 < d) : mantissa n d ≤ 2 ^ 53 := by
  have scale : 0 < d <<< (lastPlace n d).toNat := by
    rw [Nat.shiftLeft_eq]
    positivity
  have upper := (scaled_lastPlace hn hd).1
  rw [← scaled_div, div_lt_iff₀ (Nat.cast_pos.2 scale)] at upper
  exact roundHalfEven_le (by exact_mod_cast upper)

/-- Half of the least float above zero. -/
def underflow : Rat := 2 ^ (-1075 : Int)

theorem underflow_pos : 0 < underflow := by
  rw [underflow]
  positivity

theorem underflow_lt_one : underflow < 1 :=
  zpow_lt_one_of_neg₀ one_lt_two (by norm_num)

theorem mantissa_eq_zero_iff {n d : Nat} (hn : 0 < n) (hd : 0 < d) :
    mantissa n d = 0 ↔ (n : Rat) / d ≤ underflow := by
  have scale : 0 < d <<< (lastPlace n d).toNat := by
    rw [Nat.shiftLeft_eq]
    positivity
  have unit : (0 : Rat) < 2 ^ lastPlace n d := by positivity
  have half : mantissa n d = 0 ↔ (n : Rat) / d / 2 ^ lastPlace n d ≤ 1 / 2 := by
    rw [mantissa, roundHalfEven_eq_zero_iff scale, ← scaled_div,
      div_le_div_iff₀ (Nat.cast_pos.2 scale) two_pos, one_mul, mul_comm]
    norm_cast
  have halved : underflow = 1 / 2 * 2 ^ (-1074 : Int) := by
    rw [underflow, one_div, ← zpow_neg_one, ← zpow_add₀ two_ne_zero]
    rfl
  rw [half, div_le_iff₀ unit]
  rcases (scaled_lastPlace hn hd).2 with least | normal
  · rw [least, halved]
  · -- both sides fail for a number with 53 bits in front of its last place
    have large : (2 : Rat) ^ 52 * 2 ^ lastPlace n d ≤ n / d := (le_div_iff₀ unit).1 normal
    have least : (2 : Rat) ^ (-1074 : Int) ≤ 2 ^ lastPlace n d :=
      zpow_le_zpow_right₀ one_le_two (lastPlace_ge n d)
    have least_pos : (0 : Rat) < 2 ^ (-1074 : Int) := by positivity
    refine iff_of_false ?_ ?_
    · nlinarith
    · rw [halved]
      nlinarith

/-- The sign of a rational; that of zero is a plus. -/
def signOf (r : Rat) : UnpackedFloat.Sign :=
  if r < 0 then .negative else .positive

theorem ofRat_eq {r : Rat} (hr : r ≠ 0) :
    ofRat r = ofScaled (signOf r) (mantissa r.num.natAbs r.den)
      (lastPlace r.num.natAbs r.den) := by
  have nonzero : r.num.natAbs ≠ 0 := Int.natAbs_ne_zero.2 (Rat.num_ne_zero.2 hr)
  rw [ofRat, if_neg nonzero, signOf]
  exact congrArg (ofScaled · _ _) (if_congr Rat.num_neg rfl rfl)

theorem natAbs_num_div_den (r : Rat) : (r.num.natAbs : Rat) / r.den = |r| := by
  conv_rhs => rw [← Rat.num_div_den r]
  rw [abs_div, Nat.abs_cast, Nat.cast_natAbs, Int.cast_abs]

/-- A rational is converted to zero, to the float nearest to it, or to an infinity. -/
theorem unpack_ofRat (r : Rat) :
    |r| ≤ underflow ∧ unpack (ofRat r) = .zero (signOf r) ∨
    underflow < |r| ∧ (∃ m e hm, unpack (ofRat r) = .finite (signOf r) m e hm ∧
      (m : Rat) * 2 ^ e = mantissa r.num.natAbs r.den * 2 ^ lastPlace r.num.natAbs r.den) ∨
    underflow < |r| ∧ unpack (ofRat r) = .infinity (signOf r) ∧
      overflow ≤ mantissa r.num.natAbs r.den * 2 ^ lastPlace r.num.natAbs r.den := by
  by_cases hr : r = 0
  · subst hr
    exact .inl ⟨by rw [abs_zero]; exact underflow_pos.le, rfl⟩
  have hn : 0 < r.num.natAbs := Int.natAbs_pos.2 (Rat.num_ne_zero.2 hr)
  have small := mantissa_eq_zero_iff hn r.den_pos
  rw [natAbs_num_div_den] at small
  rw [ofRat_eq hr]
  rcases Nat.eq_zero_or_pos (mantissa r.num.natAbs r.den) with zero | positive
  · refine .inl ⟨small.1 zero, ?_⟩
    rw [zero, ofScaled, round_zero (lastPlace_ge _ _), unpack_pack_zero]
  · refine .inr ?_
    have large : underflow < |r| := not_le.1 (mt small.2 positive.ne')
    rcases exists_unpack_ofScaled (signOf r) positive (mantissa_le hn r.den_pos)
      (lastPlace_ge _ _) with finite | infinite
    · exact .inl ⟨large, finite⟩
    · exact .inr ⟨large, infinite⟩

theorem beq_zero_ofRat_iff {r : Rat} : (ofRat r == 0) = true ↔ |r| ≤ underflow := by
  rw [beq_zero_iff]
  rcases unpack_ofRat r with ⟨small, h⟩ | ⟨large, _, _, _, h, -⟩ | ⟨large, h, -⟩
  · exact iff_of_true ⟨_, h⟩ small
  · exact iff_of_false (by simp [h]) (not_le.2 large)
  · exact iff_of_false (by simp [h]) (not_le.2 large)

theorem ofRat_lt_zero_iff {r : Rat} : ofRat r < 0 ↔ r < -underflow := by
  have below : r < -underflow ↔ underflow < |r| ∧ signOf r = .negative := by
    have positive := underflow_pos
    unfold signOf
    split
    · next neg =>
      rw [abs_of_neg neg, and_iff_left rfl]
      exact lt_neg
    · next nonneg =>
      refine iff_of_false ?_ (by simp)
      linarith
  rw [lt_zero_iff, below]
  rcases unpack_ofRat r with ⟨small, h⟩ | ⟨large, m, e, hm, h, -⟩ | ⟨large, h, -⟩
  · exact iff_of_false (by simp [h]) fun both => absurd both.1 (not_lt.2 small)
  · simp [h, large, hm]
  · simp [h, large]

theorem hasMinus_ofRat {r : Rat} : hasMinus (ofRat r) = true ↔ r < 0 := by
  have sign : hasMinus (ofRat r) = (signOf r == .negative) := by
    unfold hasMinus
    rcases unpack_ofRat r with ⟨-, h⟩ | ⟨-, _, _, _, h, -⟩ | ⟨-, h, -⟩
    · rw [h]
    · rw [h]
    · rw [h]
  rw [sign, beq_iff_eq, signOf]
  split
  · exact iff_of_true rfl ‹_›
  · exact iff_of_false (by simp) ‹_›

theorem isNaN_ofRat (r : Rat) : (ofRat r).isNaN = false := by
  rw [isNaN_eq]
  rcases unpack_ofRat r with ⟨-, h⟩ | ⟨-, _, _, _, h, -⟩ | ⟨-, h, -⟩
  · rw [h]; rfl
  · rw [h]; rfl
  · rw [h]; rfl

/-! ## Integers -/

/-- The value of a float with parts. -/
theorem toRat?_of_finite {x : Float} {s : UnpackedFloat.Sign} {m : Nat} {e : Int} {hm : 0 < m}
    (h : unpack x = .finite s m e hm) : toRat? x = some ((s.apply m : Rat) * 2 ^ e) := by
  rw [toRat?, h]

theorem natAbs_apply (s : UnpackedFloat.Sign) (m : Nat) : (s.apply m).natAbs = m := by
  cases s with
  | negative => exact (Int.natAbs_neg _).trans (Int.natAbs_natCast m)
  | positive => exact Int.natAbs_natCast m

theorem apply_mul (s : UnpackedFloat.Sign) (m n : Nat) : s.apply (m * n : Nat) = s.apply m * n := by
  cases s with
  | negative => exact (congrArg Neg.neg (Nat.cast_mul m n)).trans (neg_mul _ _).symm
  | positive => exact Nat.cast_mul m n

theorem mul_zpow_neg_eq_iff {a k : Int} {j : Nat} :
    (a : Rat) * 2 ^ (-j : Int) = k ↔ a = k * (2 ^ j : Nat) := by
  rw [zpow_neg, zpow_natCast, ← div_eq_mul_inv, div_eq_iff (by positivity)]
  exact_mod_cast Iff.rfl

theorem even_of_mul_zpow_eq {a k e : Int} (he : 0 < e) (h : (a : Rat) * 2 ^ e = k) : Even k := by
  obtain ⟨j, rfl⟩ : ∃ j : Nat, e = (j + 1 : Nat) := ⟨(e - 1).toNat, by omega⟩
  rw [zpow_natCast] at h
  have product : a * 2 ^ (j + 1) = k := by exact_mod_cast h
  exact ⟨a * 2 ^ j, by rw [← product]; ring⟩

/-- The odd floats are those with an odd integer as their value. -/
theorem isOdd_iff {x : Float} : isOdd x = true ↔ ∃ k : Int, Odd k ∧ toRat? x = some (k : Rat) := by
  unfold isOdd toRat?
  cases unpack x with
  | notANumber => simp
  | infinity s => simp
  | zero s =>
    refine iff_of_false Bool.false_ne_true ?_
    rintro ⟨k, hk, hzero⟩
    have : k = 0 := by exact_mod_cast (Option.some.inj hzero).symm
    exact absurd (this ▸ hk) (by decide)
  | finite s m e hm =>
    simp only [Bool.and_eq_true, decide_eq_true_eq, Option.some_inj, Nat.one_shiftLeft]
    constructor
    · rintro ⟨⟨he, hdvd⟩, hodd⟩
      obtain ⟨j, rfl⟩ : ∃ j : Nat, e = -j := ⟨(-e).toNat, by omega⟩
      rw [neg_neg, Int.toNat_natCast] at hdvd hodd
      obtain ⟨q, rfl⟩ := Nat.dvd_of_mod_eq_zero hdvd
      rw [Nat.mul_div_cancel_left _ (by positivity)] at hodd
      refine ⟨s.apply q, ?_, ?_⟩
      · rw [← Int.natAbs_odd, natAbs_apply]
        exact Nat.odd_iff.2 hodd
      · rw [mul_zpow_neg_eq_iff, mul_comm, apply_mul]
    · rintro ⟨k, hk, hvalue⟩
      have he : e ≤ 0 := not_lt.1 fun he =>
        Int.not_even_iff_odd.2 hk (even_of_mul_zpow_eq he hvalue)
      obtain ⟨j, rfl⟩ : ∃ j : Nat, e = -j := ⟨(-e).toNat, by omega⟩
      have size := congrArg Int.natAbs (mul_zpow_neg_eq_iff.1 hvalue)
      rw [natAbs_apply, Int.natAbs_mul, Int.natAbs_natCast] at size
      rw [neg_neg, Int.toNat_natCast, size, Nat.mul_mod_left, Nat.mul_div_cancel _ (by positivity)]
      exact ⟨⟨he, rfl⟩, Nat.odd_iff.1 (Int.natAbs_odd.2 hk)⟩

theorem lastPlace_one {n : Nat} (hn : 0 < n) : lastPlace n 1 = n.log2 - 52 := by
  have one : Nat.log2 1 = 0 := by decide
  have lower : ¬ n < 2 ^ n.log2 := not_lt.2 (Nat.log2_self_le hn.ne')
  have quotient : log2Quotient n 1 = n.log2 := by
    simp [log2Quotient, one, Nat.one_shiftLeft, lower]
  rw [lastPlace, quotient]
  exact max_eq_left (by omega)

theorem mantissa_one {n : Nat} (hn : 0 < n) (h : n < 2 ^ 53) :
    (mantissa n 1 : Rat) * 2 ^ lastPlace n 1 = n := by
  have bits : n.log2 < 53 := (Nat.log2_lt hn.ne').2 h
  have place : lastPlace n 1 = -(52 - n.log2 : Nat) := by
    rw [lastPlace_one hn]
    omega
  rw [mantissa, place, neg_neg, Int.toNat_natCast, Int.toNat_neg_natCast, Nat.shiftLeft_zero,
    roundHalfEven_one, Nat.shiftLeft_eq, zpow_neg, zpow_natCast]
  push_cast
  field_simp

theorem apply_signOf (r : Rat) (m : Nat) (e : Int) :
    ((signOf r).apply m : Rat) * 2 ^ e = if r < 0 then -((m : Rat) * 2 ^ e) else m * 2 ^ e := by
  unfold signOf
  split
  · simp [UnpackedFloat.Sign.apply]
  · simp [UnpackedFloat.Sign.apply]

theorem underflow_lt_abs {n : Int} (hn : n ≠ 0) : underflow < |(n : Rat)| := by
  have least : (1 : Rat) ≤ |(n : Rat)| := by exact_mod_cast Int.one_le_abs hn
  exact underflow_lt_one.trans_le least

/-- An integer of 53 bits is a float. -/
theorem toRat?_ofRat_intCast {n : Int} (h : n.natAbs < 2 ^ 53) :
    toRat? (ofRat n) = some (n : Rat) := by
  by_cases hn : n = 0
  · subst hn
    rfl
  have size := mantissa_one (Int.natAbs_pos.2 hn) h
  have parts := unpack_ofRat n
  rw [Rat.num_intCast, Rat.den_intCast, size, Nat.cast_natAbs, Int.cast_abs] at parts
  rcases parts with ⟨small, -⟩ | ⟨-, m, e, hm, hunpack, hvalue⟩ | ⟨-, -, large⟩
  · exact absurd small (not_le.2 (underflow_lt_abs hn))
  · rw [toRat?_of_finite hunpack, apply_signOf, hvalue]
    split
    · next neg => rw [abs_of_neg neg, neg_neg]
    · next nonneg => rw [abs_of_nonneg (not_lt.1 nonneg)]
  · have bits : |(n : Rat)| < 2 ^ (53 : Int) := by
      rw [← Int.cast_abs, Int.abs_eq_natAbs]
      exact_mod_cast h
    have : (2 : Rat) ^ (53 : Int) ≤ overflow := zpow_le_zpow_right₀ one_le_two (by norm_num)
    exact absurd (large.trans_lt bits) (not_lt.2 this)

/-- Of the odd integers those of 53 bits are converted to odd floats, and no others: the larger
floats are all even. -/
theorem isOdd_ofRat_intCast (n : Int) :
    isOdd (ofRat n) = true ↔ Odd n ∧ n.natAbs < 2 ^ 53 := by
  constructor
  · intro hodd
    obtain ⟨k, hk, hvalue⟩ := isOdd_iff.1 hodd
    have h : n.natAbs < 2 ^ 53 := by
      by_contra large
      have hn : n ≠ 0 := by
        rintro rfl
        exact large (by norm_num)
      have place : 0 < lastPlace n.natAbs 1 := by
        have bits := (Nat.le_log2 (Int.natAbs_ne_zero.2 hn)).2 (not_lt.1 large)
        rw [lastPlace_one (Int.natAbs_pos.2 hn)]
        omega
      have parts := unpack_ofRat n
      rw [Rat.num_intCast, Rat.den_intCast] at parts
      rcases parts with ⟨small, -⟩ | ⟨-, m, e, hm, hunpack, hparts⟩ | ⟨-, hunpack, -⟩
      · exact absurd small (not_le.2 (underflow_lt_abs hn))
      · rw [toRat?_of_finite hunpack, apply_signOf, hparts, ← apply_signOf] at hvalue
        exact Int.not_even_iff_odd.2 hk (even_of_mul_zpow_eq place (Option.some.inj hvalue))
      · rw [toRat?, hunpack] at hvalue
        cases hvalue
    rw [toRat?_ofRat_intCast h] at hvalue
    have : n = k := by exact_mod_cast Option.some.inj hvalue
    exact ⟨this ▸ hk, h⟩
  · rintro ⟨hodd, h⟩
    exact isOdd_iff.2 ⟨n, hodd, toRat?_ofRat_intCast h⟩

end Binary64

end Formulary
