import Formulary.Proofs.Binary64.Infinite
import Formulary.Proofs.Binary64.Order

/-! # Exact results

A sum, a difference or a quotient of floats is rounded, and rounding leaves alone what is the value
of a float.  Integers of 53 bits are, and so is everything that is left over when a float is taken
away from another one a whole number of times.
-/

namespace Formulary.Binary64

open Float.Model
open Float.Model.UnpackedFloat

/-! ## Values of floats -/

/-- Is it the value of a float? -/
def IsFloat (r : Rat) : Prop :=
  ∃ x : Float, toRat? x = some r

theorem parts_of_toRat? {x : Float} {p : Rat} (h : toRat? x = some p) :
    (∃ s, unpack x = .zero s ∧ p = 0) ∨
      ∃ s m e hm, unpack x = .finite s m e hm ∧ p = s.apply m * 2 ^ e := by
  unfold toRat? at h
  split at h
  · next s m e hm hx => exact .inr ⟨s, m, e, hm, hx, (Option.some.inj h).symm⟩
  · next s hx => exact .inl ⟨s, hx, (Option.some.inj h).symm⟩
  · cases h
  · cases h

theorem toRat?_of_zero {x : Float} {s : UnpackedFloat.Sign} (h : unpack x = .zero s) :
    toRat? x = some 0 := by
  rw [toRat?, h]

theorem isFinite_of_toRat? {x : Float} {p : Rat} (h : toRat? x = some p) : x.isFinite = true := by
  rcases parts_of_toRat? h with ⟨s, hx, -⟩ | ⟨s, m, e, hm, hx, -⟩
  · exact isFinite_iff.2 (.inl ⟨s, hx⟩)
  · exact isFinite_iff.2 (.inr ⟨s, m, e, hm, hx⟩)

theorem apply_neg (s : UnpackedFloat.Sign) (n : Int) : (-s).apply n = -s.apply n := by
  cases s with
  | negative => exact (neg_neg n).symm
  | positive => rfl

theorem toRat?_neg {x : Float} {p : Rat} (h : toRat? x = some p) : toRat? (-x) = some (-p) := by
  rcases parts_of_toRat? h with ⟨s, hx, rfl⟩ | ⟨s, m, e, hm, hx, rfl⟩
  · rw [neg_zero]
    exact toRat?_of_zero (s := -s) (by rw [unpack_neg, hx]; rfl)
  · have parts : unpack (-x) = .finite (-s) m e hm := by rw [unpack_neg, hx]; rfl
    rw [toRat?_of_finite parts, apply_neg, Int.cast_neg, neg_mul]

theorem IsFloat.neg {r : Rat} : IsFloat r → IsFloat (-r) := by
  rintro ⟨x, hx⟩
  exact ⟨-x, toRat?_neg hx⟩

theorem isFloat_neg_iff {r : Rat} : IsFloat (-r) ↔ IsFloat r :=
  ⟨fun h => by simpa using h.neg, IsFloat.neg⟩

theorem isFloat_abs_iff {r : Rat} : IsFloat |r| ↔ IsFloat r := by
  rcases abs_choice r with h | h
  · rw [h]
  · rw [h, isFloat_neg_iff]

theorem abs_apply (s : UnpackedFloat.Sign) (m : Nat) : |(s.apply m : Rat)| = m := by
  rw [← Int.cast_abs, Int.abs_eq_natAbs, natAbs_apply]
  rfl

theorem abs_apply_mul (s : UnpackedFloat.Sign) (m : Nat) (e : Int) :
    |(s.apply m * 2 ^ e : Rat)| = m * 2 ^ e := by
  rw [abs_mul, abs_apply, abs_of_pos (zpow_pos two_pos e)]

theorem IsFloat.exists_fits {r : Rat} (h : IsFloat r) (nonzero : r ≠ 0) :
    ∃ m e, 0 < m ∧ Fits m e ∧ |r| = m * 2 ^ e := by
  obtain ⟨x, hx⟩ := h
  rcases parts_of_toRat? hx with ⟨s, -, rfl⟩ | ⟨s, m, e, hm, hunpack, rfl⟩
  · exact absurd rfl nonzero
  · exact ⟨m, e, hm, fits_of_unpack hunpack, abs_apply_mul s m e⟩

/-- A number of at most 53 bits within the range of floats is one. -/
theorem isFloat_of_lt {m : Nat} {e : Int} (upper : m ≤ 2 ^ 53) (least : -1074 ≤ e)
    (small : (m : Rat) * 2 ^ e < overflow) : IsFloat (m * 2 ^ e) := by
  rcases Nat.eq_zero_or_pos m with rfl | hm
  · exact ⟨0, by rw [Nat.cast_zero, zero_mul]; rfl⟩
  · rcases exists_unpack_ofScaled .positive hm upper least with
      ⟨m', e', hm', hunpack, hvalue⟩ | ⟨-, large⟩
    · refine ⟨_, (toRat?_of_finite hunpack).trans ?_⟩
      rw [← hvalue]
      rfl
    · exact absurd small large.not_gt

theorem isFloat_intCast {n : Int} (h : |n| ≤ 2 ^ 53) : IsFloat n := by
  have natural (k : Nat) (hk : k ≤ 2 ^ 53) : IsFloat (k : Rat) := by
    have small : (k : Rat) * 2 ^ (0 : Int) < overflow := by
      have : (k : Rat) ≤ 2 ^ (53 : Int) := by exact_mod_cast hk
      rw [zpow_zero, mul_one]
      exact this.trans_lt (zpow_lt_zpow_right₀ one_lt_two (by norm_num))
    have := isFloat_of_lt hk (by norm_num) small
    rwa [zpow_zero, mul_one] at this
  obtain ⟨k, rfl | rfl⟩ := n.eq_nat_or_neg
  · exact_mod_cast natural k (by rw [Nat.abs_cast] at h; exact_mod_cast h)
  · have := natural k (by rw [abs_neg, Nat.abs_cast] at h; exact_mod_cast h)
    exact_mod_cast this.neg

/-! ## Rounding -/

/-- The place of the first binary digit is the same however the number is written. -/
theorem log2_add_eq {m n : Nat} {e f : Int} (hm : 0 < m) (hn : 0 < n)
    (h : (m : Rat) * 2 ^ e = n * 2 ^ f) : (m.log2 : Int) + e = n.log2 + f := by
  have bound {m n : Nat} {e f : Int} (hm : 0 < m) (h : (m : Rat) * 2 ^ e = n * 2 ^ f) :
      (m.log2 : Int) + e ≤ n.log2 + f := by
    have between : (2 : Rat) ^ (m.log2 + e : Int) < 2 ^ (n.log2 + 1 + f : Int) := by
      rw [zpow_add₀ two_ne_zero, zpow_add₀ two_ne_zero]
      calc (2 : Rat) ^ (m.log2 : Int) * 2 ^ e ≤ m * 2 ^ e := by
            gcongr
            exact two_pow_log2_le hm
        _ = n * 2 ^ f := h
        _ < 2 ^ (n.log2 + 1 : Int) * 2 ^ f := by
            gcongr
            exact lt_two_pow_log2 n
    have := (zpow_lt_zpow_iff_right₀ (one_lt_two (α := Rat))).1 between
    omega
  exact le_antisymm (bound hm h) (bound hn h.symm)

theorem Fits.place_eq {m : Nat} {e : Int} (hm : 0 < m) (h : Fits m e) :
    max (m.log2 + e - 52) (-1074) = e := by
  have bits : m.log2 < 53 := (Nat.log2_lt hm.ne').2 h.upper
  have least := h.least
  rcases h.lower with normal | rfl
  · have := (Nat.le_log2 hm.ne').2 normal
    omega
  · omega

theorem shiftRight_mul_two_pow (m k : Nat) :
    (⟨m * 2 ^ k, false, false⟩ : ExtendedMantissa) >>> k = ⟨m, false, false⟩ := by
  change k.repeat ExtendedMantissa.shiftRightOne _ = _
  induction k generalizing m with
  | zero =>
    rw [pow_zero, mul_one]
    rfl
  | succ k ih =>
    rw [pow_succ', ← mul_assoc, Nat.repeat, ih]
    simp [ExtendedMantissa.shiftRightOne]

section Round

variable {s : UnpackedFloat.Sign} {m n : Nat} {e f : Int} (hm : 0 < m) (hn : 0 < n) (h : Fits n f)
  (value : (m : Rat) * 2 ^ e = n * 2 ^ f)

include hm h value

/-- Places that are zero are dropped without a loss. -/
theorem roundWithAccuracy_exact (he : e ≤ f) :
    roundWithAccuracy .binary64 s m e .exact = .finite s n f hn := by
  obtain ⟨k, rfl⟩ : ∃ k : Nat, f = e + k := ⟨(f - e).toNat, by omega⟩
  have mantissa : m = n * 2 ^ k := by
    have unit : (2 : Rat) ^ e ≠ 0 := by positivity
    rw [zpow_add₀ two_ne_zero, zpow_natCast, mul_comm ((2 : Rat) ^ e), ← mul_assoc] at value
    exact_mod_cast mul_right_cancel₀ unit value
  have place : max (m.log2 + e - 52) (-1074) = e + k := by
    rw [log2_add_eq hm hn value]
    exact h.place_eq hn
  have shifted : shiftToTargetExponent .binary64 m e .exact = (⟨n, false, false⟩, e + k) := by
    rw [shiftToTargetExponent, targetExponent_eq, place, shiftToExponent, add_sub_cancel_left,
      Int.toNat_natCast, mantissa]
    exact Prod.ext (shiftRight_mul_two_pow n k) rfl
  have settled : shiftToTargetExponent .binary64 n (e + k) .exact = (⟨n, false, false⟩, e + k) :=
    shiftToTargetExponent_self (h.place_eq hn).le
  have rounded : (⟨n, false, false⟩ : ExtendedMantissa).roundedMantissa = n := rfl
  rw [roundWithAccuracy, shifted]
  simp only [rounded, settled]
  exact dif_neg hn.ne'

theorem round_exact : UnpackedFloat.round .binary64 s m e = .finite s n f hn := by
  have target : Format.binary64.targetExponent (totalExponent m e) = f := by
    rw [targetExponent_eq, log2_add_eq hm hn value]
    exact h.place_eq hn
  have lifted : ((m <<< (e - f).toNat : Nat) : Rat) * 2 ^ (e - (e - f).toNat) = n * 2 ^ f := by
    rw [← value, Nat.shiftLeft_eq, zpow_sub₀ two_ne_zero, zpow_natCast]
    push_cast
    field_simp
  have positive : 0 < m <<< (e - f).toNat := by
    rw [Nat.shiftLeft_eq]
    positivity
  rw [UnpackedFloat.round, target]
  exact roundWithAccuracy_exact positive hn h lifted (by omega)

end Round

/-- Rounding leaves the value of a float alone. -/
theorem toRat?_ofScaled {s : UnpackedFloat.Sign} {m : Nat} {e : Int} (hm : 0 < m)
    (h : IsFloat (m * 2 ^ e)) :
    toRat? (ofScaled s m e) = some ((s.apply m : Rat) * 2 ^ e) := by
  obtain ⟨n, f, hn, hfits, hvalue⟩ := h.exists_fits (by positivity)
  rw [abs_of_pos (by positivity)] at hvalue
  rw [ofScaled, round_exact hm hn hfits hvalue, toRat?_of_finite (unpack_pack_finite hn hfits)]
  cases s with
  | negative => simp [UnpackedFloat.Sign.apply, hvalue]
  | positive => exact congrArg some hvalue.symm

theorem toRat?_normalize {s : UnpackedFloat.Sign} {n : Int} {e : Int} (h : IsFloat (n * 2 ^ e)) :
    toRat? (pack (UnpackedFloat.normalize .binary64 n e s)) = some ((n : Rat) * 2 ^ e) := by
  rcases lt_trichotomy n 0 with neg | rfl | pos
  · obtain ⟨k, rfl⟩ : ∃ k : Nat, n = -k := ⟨n.natAbs, by omega⟩
    have hk : 0 < k := by omega
    have magnitude : IsFloat (k * 2 ^ e) := by
      rw [← isFloat_neg_iff]
      simpa using h
    rw [UnpackedFloat.normalize, compare_lt_iff_lt.2 neg]
    simp only [neg_neg, Int.toNat_natCast]
    exact toRat?_ofScaled hk magnitude
  · rw [Int.cast_zero, zero_mul]
    exact toRat?_of_zero (unpack_pack_zero s)
  · obtain ⟨k, rfl⟩ : ∃ k : Nat, n = k := ⟨n.toNat, by omega⟩
    rw [UnpackedFloat.normalize, compare_gt_iff_gt.2 pos]
    simp only [Int.toNat_natCast]
    exact toRat?_ofScaled (by omega) h

/-! ## Sums -/

theorem pack_unpack_float (x : Float) : pack (unpack x) = x :=
  unpack_injective (unpack_pack (canonical_unpack x))

/-- A mantissa that is written with a smaller exponent. -/
theorem apply_decreaseExponent (s : UnpackedFloat.Sign) (m : Nat) {e k : Int} (h : k ≤ e) :
    (s.apply (decreaseExponent m e k).1 : Rat) * 2 ^ k = s.apply m * 2 ^ e := by
  obtain ⟨j, rfl⟩ : ∃ j : Nat, e = k + j := ⟨(e - k).toNat, by omega⟩
  rw [decreaseExponent, add_sub_cancel_left, Int.toNat_natCast]
  simp only
  rw [Nat.shiftLeft_eq, apply_mul, zpow_add₀ two_ne_zero, zpow_natCast]
  push_cast
  ring

theorem sub_parts (u v : UnpackedFloat) :
    UnpackedFloat.sub .binary64 u v = UnpackedFloat.add .binary64 u v.neg := by
  cases u <;> cases v <;> try rfl
  simp only [UnpackedFloat.sub, UnpackedFloat.neg, UnpackedFloat.add, apply_neg, sub_eq_add_neg]

theorem sub_eq (x y : Float) : x - y = x + -y := by
  change pack (UnpackedFloat.sub .binary64 (unpack x) (unpack y)) =
    pack (UnpackedFloat.add .binary64 (unpack x) (unpack (-y)))
  rw [sub_parts, unpack_neg]

section Sum

variable {x y : Float} {p q : Rat} (hx : toRat? x = some p) (hy : toRat? y = some q)

include hx hy

/-- A sum that is the value of a float is exact. -/
theorem toRat?_add (h : IsFloat (p + q)) : toRat? (x + y) = some (p + q) := by
  change toRat? (pack (UnpackedFloat.add .binary64 (unpack x) (unpack y))) = _
  rcases parts_of_toRat? hx with ⟨s, hs, rfl⟩ | ⟨s, m, e, hm, hs, rfl⟩
  · rcases parts_of_toRat? hy with ⟨t, ht, rfl⟩ | ⟨t, n, f, hn, ht, rfl⟩
    · rw [hs, ht, add_zero]
      cases s <;> cases t <;> rfl
    · have same : UnpackedFloat.add .binary64 (unpack x) (unpack y) = unpack y := by
        rw [hs, ht]
        rfl
      rw [same, pack_unpack_float, zero_add, hy]
  · rcases parts_of_toRat? hy with ⟨t, ht, rfl⟩ | ⟨t, n, f, hn, ht, rfl⟩
    · have same : UnpackedFloat.add .binary64 (unpack x) (unpack y) = unpack x := by
        rw [hs, ht]
        rfl
      rw [same, pack_unpack_float, add_zero, hx]
    · have value : ((s.apply (decreaseExponent m e (min e f)).1 +
          t.apply (decreaseExponent n f (min e f)).1 : Int) : Rat) * 2 ^ min e f =
          s.apply m * 2 ^ e + t.apply n * 2 ^ f := by
        rw [Int.cast_add, add_mul, apply_decreaseExponent s m (min_le_left e f),
          apply_decreaseExponent t n (min_le_right e f)]
      rw [hs, ht, ← value]
      rw [← value] at h
      exact toRat?_normalize h

theorem toRat?_sub (h : IsFloat (p - q)) : toRat? (x - y) = some (p - q) := by
  rw [sub_eq_add_neg] at h ⊢
  rw [sub_eq, toRat?_add hx (toRat?_neg hy) h]

end Sum

/-! ## Quotients -/

/-- The sign of a quotient times the sign of the divisor is the sign of the dividend. -/
theorem apply_div_mul (s t : UnpackedFloat.Sign) (k n : Nat) :
    (s / t).apply k * t.apply n = s.apply (k * n : Nat) := by
  have unit (s : UnpackedFloat.Sign) (n : Int) : s.apply n = s.apply 1 * n := by
    cases s with
    | negative => exact (neg_one_mul n).symm
    | positive => exact (one_mul n).symm
  have signs : (s / t).apply 1 * t.apply 1 = s.apply 1 := by cases s <;> cases t <;> rfl
  rw [unit (s / t), unit t, unit s, ← signs, Nat.cast_mul]
  ring

section Quotient

variable {m n k : Nat} {e f g : Int} (hm : 0 < m) (hn : 0 < n) (hk : 0 < k) (h : Fits k g)
  (value : (m : Rat) * 2 ^ e = (k * n : Nat) * 2 ^ (g + f))

include hm hn hk h value

/-- A quotient is computed to at least as many places as a float that is equal to it has. -/
theorem divPlace_le :
    min (e - f) (Format.binary64.targetExponent (totalExponent m e - totalExponent n f)) ≤ g := by
  have size := log2_add_eq hm (Nat.mul_pos hk hn) value
  have product : (k * n).log2 ≤ k.log2 + n.log2 + 1 := by
    have bound : k * n < 2 ^ (k.log2 + 1) * 2 ^ (n.log2 + 1) :=
      Nat.mul_lt_mul'' Nat.lt_log2_self Nat.lt_log2_self
    have := (Nat.log2_lt (Nat.mul_pos hk hn).ne').2 (bound.trans_eq (pow_add ..).symm)
    omega
  have place := h.place_eq hk
  have target : Format.binary64.targetExponent (totalExponent m e - totalExponent n f) =
      max (m.log2 + e - (n.log2 + f) - 53) (-1074) := by
    change max (m.log2 + 1 + e - (n.log2 + 1 + f) - 53) (-1074) = _
    congr 1
    ring
  omega

theorem divCore_exact :
    ∃ j : Nat, divCore .binary64 m e n f = (k * 2 ^ j, g - j, .exact) := by
  have low := divPlace_le hm hn hk h value
  rw [divCore]
  generalize hplace :
    min (e - f) (Format.binary64.targetExponent (totalExponent m e - totalExponent n f)) = t at low
  obtain ⟨j, rfl⟩ : ∃ j : Nat, t = g - j := ⟨(g - t).toNat, by omega⟩
  obtain ⟨i, shift⟩ : ∃ i : Nat, e - f = g - j + i :=
    ⟨(e - f - (g - j)).toNat, by have := hplace ▸ min_le_left (e - f) _; omega⟩
  have lifted : m <<< i = n * (k * 2 ^ j) := by
    have unit : (2 : Rat) ^ (g - j + f) ≠ 0 := by positivity
    have places : (2 : Rat) ^ e = 2 ^ i * 2 ^ (g - j + f) := by
      rw [← zpow_natCast, ← zpow_add₀ two_ne_zero]
      congr 1
      omega
    have unplaces : (2 : Rat) ^ (g + f) = 2 ^ j * 2 ^ (g - j + f) := by
      rw [← zpow_natCast, ← zpow_add₀ two_ne_zero]
      congr 1
      omega
    rw [places, unplaces, ← mul_assoc, ← mul_assoc] at value
    have := mul_right_cancel₀ unit value
    rw [Nat.shiftLeft_eq, mul_left_comm, ← mul_assoc]
    exact_mod_cast this
  refine ⟨j, ?_⟩
  have amount : (e - f - (g - j)).toNat = i := by omega
  simp only [amount, lifted, Nat.mul_div_cancel_left _ hn, Nat.mul_mod_right]
  rfl

end Quotient

/-- A quotient that is the value of a float is exact. -/
theorem toRat?_div {x y : Float} {p q : Rat} (hx : toRat? x = some p) (hy : toRat? y = some q)
    (nonzero : q ≠ 0) (h : IsFloat (p / q)) : toRat? (x / y) = some (p / q) := by
  change toRat? (pack (UnpackedFloat.div .binary64 (unpack x) (unpack y))) = _
  rcases parts_of_toRat? hy with ⟨t, ht, rfl⟩ | ⟨t, n, f, hn, ht, rfl⟩
  · exact absurd rfl nonzero
  rcases parts_of_toRat? hx with ⟨s, hs, rfl⟩ | ⟨s, m, e, hm, hs, rfl⟩
  · rw [hs, ht, zero_div]
    exact toRat?_of_zero (unpack_pack_zero (s / t))
  · have hp : (s.apply m * 2 ^ e : Rat) ≠ 0 := by
      rw [← abs_pos, abs_apply_mul]
      positivity
    obtain ⟨k, g, hk, hfits, quotient⟩ := h.exists_fits (div_ne_zero hp nonzero)
    have value : (m : Rat) * 2 ^ e = (k * n : Nat) * 2 ^ (g + f) := by
      rw [abs_div, abs_apply_mul, abs_apply_mul, div_eq_iff (by positivity)] at quotient
      rw [quotient, zpow_add₀ two_ne_zero]
      push_cast
      ring
    obtain ⟨j, core⟩ := divCore_exact hm hn hk hfits value
    have exact : UnpackedFloat.div .binary64 (unpack x) (unpack y) = .finite (s / t) k g hk := by
      rw [hs, ht, UnpackedFloat.div, core]
      refine roundWithAccuracy_exact (by positivity) hk hfits ?_ (by omega)
      rw [zpow_sub₀ two_ne_zero, zpow_natCast]
      push_cast
      field_simp
    rw [exact, toRat?_of_finite (unpack_pack_finite hk hfits)]
    refine congrArg some ((eq_div_iff nonzero).2 ?_)
    calc ((s / t).apply k * 2 ^ g * (t.apply n * 2 ^ f) : Rat)
        = ((s / t).apply k * t.apply n : Int) * 2 ^ (g + f) := by
          rw [zpow_add₀ two_ne_zero]
          push_cast
          ring
      _ = s.apply (k * n : Nat) * 2 ^ (g + f) := by rw [apply_div_mul]
      _ = s.apply m * 2 ^ e := by
          cases s with
          | negative => simpa [UnpackedFloat.Sign.apply] using value.symm
          | positive => exact value.symm

/-! ## Remainders -/

/-- At the smaller of the two exponents one operand is as it was, so the remainder is no longer
than that operand. -/
theorem isFloat_remainder {m n : Nat} {e f : Int} (hn : 0 < n) (he : Fits m e) (hf : Fits n f) :
    IsFloat (((decreaseExponent m e (min e f)).1 % (decreaseExponent n f (min e f)).1 : Nat) *
      2 ^ min e f) := by
  have dividend := apply_decreaseExponent .positive m (min_le_left e f)
  refine isFloat_of_lt ?_ (le_min he.least hf.least) ?_
  · rcases le_total e f with below | below
    · rw [min_eq_left below]
      have same : (decreaseExponent m e e).1 = m := by rw [decreaseExponent, sub_self]; rfl
      rw [same]
      exact (Nat.mod_le m _).trans he.upper.le
    · rw [min_eq_right below]
      have same : (decreaseExponent n f f).1 = n := by rw [decreaseExponent, sub_self]; rfl
      rw [same]
      exact ((Nat.mod_lt _ hn).trans hf.upper).le
  · refine lt_of_le_of_lt ?_ he.lt_overflow
    calc _ ≤ ((decreaseExponent m e (min e f)).1 : Rat) * 2 ^ min e f := by
          gcongr
          exact Nat.mod_le _ _
      _ = m * 2 ^ e := dividend

section Remainder

variable {x y : Float} {p q : Rat} (hx : toRat? x = some p) (hy : toRat? y = some q)
  (nonzero : q ≠ 0)

include hx hy nonzero

/-- A remainder is what is left after taking the divisor away a whole number of times. -/
theorem toRat?_remainder :
    ∃ (t : Int) (r : Rat), toRat? (remainder x y) = some r ∧ p = q * t + r ∧ |r| < |q| := by
  rcases parts_of_toRat? hy with ⟨t, ht, rfl⟩ | ⟨t, n, f, hn, ht, rfl⟩
  · exact absurd rfl nonzero
  rcases parts_of_toRat? hx with ⟨s, hs, rfl⟩ | ⟨s, m, e, hm, hs, rfl⟩
  · have same : remainder x y = x := by rw [remainder, hs, ht]
    exact ⟨0, 0, by rw [same, hx], by simp, by simpa only [abs_zero, abs_pos] using nonzero⟩
  · have exact := isFloat_remainder hn (fits_of_unpack hs) (fits_of_unpack ht)
    have dividend := apply_decreaseExponent s m (min_le_left e f)
    have divisor := apply_decreaseExponent t n (min_le_right e f)
    have computed : remainder x y =
        if (decreaseExponent m e (min e f)).1 % (decreaseExponent n f (min e f)).1 = 0 then
          pack (.zero s)
        else ofScaled s ((decreaseExponent m e (min e f)).1 % (decreaseExponent n f (min e f)).1)
          (min e f) := by
      rw [remainder, hs, ht]
      rfl
    have positive : 0 < (decreaseExponent n f (min e f)).1 := by
      rw [decreaseExponent, Nat.shiftLeft_eq]
      positivity
    generalize (decreaseExponent m e (min e f)).1 = a at *
    generalize (decreaseExponent n f (min e f)).1 = b at *
    generalize min e f = k at *
    refine ⟨(s / t).apply (a / b), s.apply (a % b : Nat) * 2 ^ k, ?_, ?_, ?_⟩
    · rw [computed]
      split
      · next none =>
        rw [none, toRat?_of_zero (unpack_pack_zero s)]
        cases s <;> simp [UnpackedFloat.Sign.apply]
      · next some => exact toRat?_ofScaled (Nat.pos_of_ne_zero some) exact
    · have whole : (t.apply b * (s / t).apply (a / b : Nat) + s.apply (a % b : Nat) : Int) =
          s.apply a := by
        rw [mul_comm, apply_div_mul]
        conv_rhs => rw [← Nat.div_add_mod' a b]
        cases s <;>
        · simp only [UnpackedFloat.Sign.apply]
          push_cast
          ring
      rw [← dividend, ← divisor, ← whole]
      push_cast
      ring
    · rw [← divisor, abs_apply_mul, abs_apply_mul]
      gcongr
      exact Nat.mod_lt a positive

end Remainder

/-! ## Signs and whole numbers -/

theorem lt_zero_iff_of_toRat? {x : Float} {p : Rat} (hx : toRat? x = some p) : x < 0 ↔ p < 0 := by
  rw [lt_iff_position (isNaN_of_isFinite (isFinite_of_toRat? hx)) rfl, position_of_toRat? hx]
  rfl

theorem beq_zero_iff_of_toRat? {x : Float} {p : Rat} (hx : toRat? x = some p) :
    (x == 0) = true ↔ p = 0 := by
  rw [beq_iff_position (isNaN_of_isFinite (isFinite_of_toRat? hx)) rfl, position_of_toRat? hx]
  rfl

/-- The modulo is the remainder, but a remainder that does not have the sign of the divisor gets the
divisor added. -/
theorem modulo_eq {x y : Float} {r q : Rat} (hr : toRat? (remainder x y) = some r)
    (hy : toRat? y = some q) :
    modulo x y =
      if r ≠ 0 ∧ ¬ (r < 0 ↔ q < 0) then remainder x y + y else remainder x y := by
  have nonzero : (remainder x y != 0) = true ↔ r ≠ 0 := by
    rw [bne, Bool.not_eq_true', ← Bool.not_eq_true, beq_zero_iff_of_toRat? hr]
  have signs : (decide (remainder x y < 0) != decide (y < 0)) = true ↔ ¬ (r < 0 ↔ q < 0) := by
    rw [bne_iff_ne, ne_eq, decide_eq_decide, lt_zero_iff_of_toRat? hr, lt_zero_iff_of_toRat? hy]
  rw [modulo]
  exact if_congr (by rw [Bool.and_eq_true, nonzero, signs]) rfl rfl

theorem roundHalfUp_mul (n : Nat) {d : Nat} (hd : 0 < d) : roundHalfUp (n * d) d = n := by
  rw [roundHalfUp, Nat.div_eq_iff (by omega)]
  have product : n * (2 * d) = 2 * (n * d) := mul_left_comm ..
  omega

/-- A whole number is rounded to itself. -/
theorem toRat?_roundHalfAway {x : Float} {n : Int} (hx : toRat? x = some (n : Rat)) :
    toRat? (roundHalfAway x) = some (n : Rat) := by
  rcases parts_of_toRat? hx with ⟨s, hs, -⟩ | ⟨s, m, e, hm, hs, value⟩
  · have same : roundHalfAway x = x := by rw [roundHalfAway, hs]
    rw [same, hx]
  · rcases le_or_gt 0 e with whole | fraction
    · have same : roundHalfAway x = x := by rw [roundHalfAway, hs]; exact if_pos whole
      rw [same, hx]
    · obtain ⟨j, rfl⟩ : ∃ j : Nat, e = -j := ⟨(-e).toNat, by omega⟩
      have scaled := mul_zpow_neg_eq_iff.1 value.symm
      obtain rfl : m = n.natAbs * 2 ^ j := by
        have size := congrArg Int.natAbs scaled
        rwa [natAbs_apply, Int.natAbs_mul, Int.natAbs_natCast] at size
      have signed : s.apply n.natAbs = n := by
        rw [apply_mul] at scaled
        exact mul_right_cancel₀ (by positivity) scaled
      have positive : 0 < n.natAbs := Nat.pos_of_mul_pos_right hm
      have computed : roundHalfAway x = ofScaled s n.natAbs 0 := by
        have unit : 1 <<< (- -(j : Int)).toNat = 2 ^ j := by
          rw [neg_neg, Int.toNat_natCast, Nat.one_shiftLeft]
        rw [roundHalfAway, hs]
        simp only [unit, roundHalfUp_mul n.natAbs (Nat.two_pow_pos j)]
        rw [if_neg (by omega), if_neg positive.ne']
      rw [computed, toRat?_ofScaled positive, zpow_zero, mul_one, signed]
      rw [zpow_zero, mul_one, ← abs_apply s, isFloat_abs_iff, signed]
      exact ⟨x, hx⟩

end Formulary.Binary64
