import Formulary.Proofs.Binary64.Nearest

/-! # The range of floats

A rational is converted to an infinity from half a unit below `2 ^ 1024` on: there the mantissa is
carried into one more bit than the greatest exponent allows.
-/

namespace Formulary

/-- A quotient is rounded to an even number from half a unit below it on. -/
theorem even_le_roundHalfEven_iff {n d k : Nat} (hd : 0 < d) (even : k % 2 = 0) (hk : 0 < k) :
    k ≤ roundHalfEven n d ↔ (2 * k - 1) * d ≤ 2 * n := by
  have parts := Nat.div_add_mod' n d
  have rest := Nat.mod_lt n hd
  rw [roundHalfEven_eq]
  rcases Nat.lt_trichotomy (n / d + 1) k with below | last | above
  · have product := Nat.mul_le_mul_right d (show 2 * (n / d) + 3 ≤ 2 * k - 1 by omega)
    rw [add_mul, mul_assoc] at product
    refine iff_of_false ?_ (by omega)
    split_ifs <;> omega
  · have product : (2 * k - 1) * d = 2 * (n / d * d) + d := by
      rw [← last, show 2 * (n / d + 1) - 1 = 2 * (n / d) + 1 by omega]
      ring
    rw [product]
    split_ifs <;> omega
  · have product := Nat.mul_le_mul_right d (show 2 * k - 1 ≤ 2 * (n / d) by omega)
    rw [mul_assoc] at product
    refine iff_of_true ?_ (by omega)
    split_ifs <;> omega

namespace Binary64

open Float.Model.UnpackedFloat

/-! ## Mantissas near the end of the range -/

/-- The size from which on numbers are rounded to one that is too large for floats: it lies half a
unit in the last place below. -/
def limit : Rat := (2 ^ 54 - 1) * 2 ^ (970 : Int)

theorem even_le_mantissa_iff {n d k : Nat} (hd : 0 < d) (even : k % 2 = 0) (hk : 0 < k) :
    k ≤ mantissa n d ↔ (k - 1 / 2) * 2 ^ lastPlace n d ≤ (n : Rat) / d := by
  have scale : 0 < d <<< (lastPlace n d).toNat := by
    rw [Nat.shiftLeft_eq]
    positivity
  have unit : (0 : Rat) < 2 ^ lastPlace n d := by positivity
  have half : ((2 * k - 1 : Nat) : Rat) = 2 * (k - 1 / 2) := by
    rw [Nat.cast_sub (by omega)]
    push_cast
    ring
  rw [mantissa, even_le_roundHalfEven_iff scale even hk, ← le_div_iff₀ unit, ← scaled_div,
    le_div_iff₀ (Nat.cast_pos.2 scale), ← Nat.cast_le (α := Rat), Nat.cast_mul, half, Nat.cast_mul,
    Nat.cast_two, mul_assoc]
  exact mul_le_mul_iff_right₀ two_pos

theorem overflow_eq : overflow = 2 ^ 54 * 2 ^ (970 : Int) := by
  rw [overflow, ← zpow_natCast, ← zpow_add₀ two_ne_zero]
  rfl

/-- The last place of 53 bits in front of `2 ^ 1024` is the 971st. -/
theorem two_zpow_cases (p : Int) :
    p < 971 ∧ (2 : Rat) ^ p ≤ 2 ^ (970 : Int) ∨ p = 971 ∧ (2 : Rat) ^ p = 2 * 2 ^ (970 : Int) ∨
      971 < p ∧ 4 * (2 : Rat) ^ (970 : Int) ≤ 2 ^ p := by
  rcases lt_trichotomy p 971 with small | rfl | large
  · exact .inl ⟨small, zpow_le_zpow_right₀ one_le_two (by omega)⟩
  · refine .inr (.inl ⟨rfl, ?_⟩)
    exact zpow_one_add₀ two_ne_zero 970
  · have shift : (4 : Rat) * 2 ^ (970 : Int) = 2 ^ (2 + 970 : Int) := by
      rw [zpow_add₀ two_ne_zero]
      exact congrArg (· * _) (by norm_num)
    refine .inr (.inr ⟨large, ?_⟩)
    rw [shift]
    exact zpow_le_zpow_right₀ one_le_two (by omega)

theorem overflow_le_mantissa_iff {n d : Nat} (hn : 0 < n) (hd : 0 < d) :
    overflow ≤ mantissa n d * 2 ^ lastPlace n d ↔ limit ≤ (n : Rat) / d := by
  obtain ⟨upper, lower⟩ := scaled_lastPlace hn hd
  have unit : (0 : Rat) < 2 ^ lastPlace n d := by positivity
  have least : (0 : Rat) < 2 ^ (970 : Int) := by positivity
  have even (k : Nat) := even_le_mantissa_iff (n := n) (k := 2 ^ (k + 1)) hd
  rw [div_lt_iff₀ unit] at upper
  rw [le_div_iff₀ unit] at lower
  rw [overflow_eq, limit]
  rcases two_zpow_cases (lastPlace n d) with ⟨small, place⟩ | ⟨last, place⟩ | ⟨large, place⟩
  · have rounded : (mantissa n d : Rat) ≤ 2 ^ 53 := by exact_mod_cast mantissa_le hn hd
    -- the units are only compared, and must not be evaluated
    generalize (2 : Rat) ^ (970 : Int) = u, (2 : Rat) ^ lastPlace n d = p at *
    exact iff_of_false (by nlinarith) (by nlinarith)
  · have edge := even 52 (by norm_num) (by norm_num)
    rw [← Nat.cast_le (α := Rat), place] at edge
    rw [place]
    generalize (2 : Rat) ^ (970 : Int) = u, (mantissa n d : Rat) = m, (n : Rat) / d = q at *
    push_cast at edge
    constructor
    · intro h
      have := edge.1 (by nlinarith)
      linarith
    · intro h
      have := edge.2 (by linarith)
      nlinarith
  · have normal := lower.resolve_left (by omega)
    have edge := even 51 (by norm_num) (by norm_num)
    rw [← Nat.cast_le (α := Rat)] at edge
    generalize (2 : Rat) ^ (970 : Int) = u, (2 : Rat) ^ lastPlace n d = p,
      (mantissa n d : Rat) = m, (n : Rat) / d = q at *
    push_cast at edge
    have rounded := edge.2 (by linarith)
    exact iff_of_true (by nlinarith) (by linarith)

/-! ## Rationals beyond the range -/

theorem underflow_lt_limit : underflow < limit := by
  have least : (1 : Rat) ≤ 2 ^ (970 : Int) := one_le_zpow₀ one_le_two (by norm_num)
  have small := underflow_lt_one
  rw [limit]
  generalize (2 : Rat) ^ (970 : Int) = u at *
  linarith

theorem Fits.lt_overflow {m : Nat} {e : Int} (h : Fits m e) : (m : Rat) * 2 ^ e < overflow := by
  have mantissa : (m : Rat) < 2 ^ 53 := by exact_mod_cast h.upper
  have place : (2 : Rat) ^ e ≤ 2 * 2 ^ (970 : Int) := by
    rw [← zpow_one_add₀ two_ne_zero]
    exact zpow_le_zpow_right₀ one_le_two h.most
  have unit : (0 : Rat) < 2 ^ e := by positivity
  rw [overflow_eq]
  generalize (2 : Rat) ^ (970 : Int) = u, (2 : Rat) ^ e = p at *
  nlinarith

/-- A rational is converted to an infinity exactly if it is rounded to a number that is too large
for floats. -/
theorem isInf_ofRat_iff {r : Rat} : (ofRat r).isInf = true ↔ limit ≤ |r| := by
  have rounded (hr : r ≠ 0) :=
    overflow_le_mantissa_iff (Int.natAbs_pos.2 (Rat.num_ne_zero.2 hr)) r.den_pos
  simp only [natAbs_num_div_den] at rounded
  have nonzero (large : underflow < |r|) : r ≠ 0 :=
    abs_pos.1 (underflow_pos.trans large)
  rw [isInf_iff]
  rcases unpack_ofRat r with ⟨small, h⟩ | ⟨above, m, e, hm, h, hvalue⟩ | ⟨above, h, large⟩
  · exact iff_of_false (by simp [h]) (not_le.2 (small.trans_lt underflow_lt_limit))
  · have below := (fits_of_unpack h).lt_overflow
    rw [hvalue] at below
    exact iff_of_false (by simp [h]) (mt (rounded (nonzero above)).2 (not_le.2 below))
  · exact iff_of_true ⟨_, h⟩ ((rounded (nonzero above)).1 large)

end Binary64

end Formulary
