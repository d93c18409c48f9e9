import Formulary.Proofs.Binary64.Parts

/-! # Infinite operands

A sum, a difference or a product with an operand that is not finite is not finite either, and
neither is a quotient with such a dividend.  But a finite number divided by an infinity is zero.
-/

namespace Formulary.Binary64

open Float.Model
open Float.Model.UnpackedFloat

/-! ## Infinities

An infinity is no number that a test asks for, whatever its sign.
-/

section Infinity

variable {x : Float} (h : x.isInf = true)

include h

theorem isNaN_of_isInf : x.isNaN = false := by
  obtain ⟨s, hs⟩ := isInf_iff.1 h
  rw [isNaN_eq, hs]
  rfl

theorem isFinite_of_isInf : x.isFinite = false := by
  obtain ⟨s, hs⟩ := isInf_iff.1 h
  rw [isFinite_eq, hs]
  rfl

theorem isOdd_of_isInf : isOdd x = false := by
  obtain ⟨s, hs⟩ := isInf_iff.1 h
  rw [isOdd, hs]

theorem isWhole_of_isInf : isWhole x = false := by
  obtain ⟨s, hs⟩ := isInf_iff.1 h
  rw [isWhole, hs]

theorem beq_zero_of_isInf : (x == 0) = false := by
  obtain ⟨s, hs⟩ := isInf_iff.1 h
  refine Bool.eq_false_iff.2 fun hzero => ?_
  obtain ⟨t, ht⟩ := beq_zero_iff.1 hzero
  rw [hs] at ht
  cases ht

theorem beq_one_of_isInf : (x == 1) = false := by
  obtain ⟨s, hs⟩ := isInf_iff.1 h
  refine Bool.eq_false_iff.2 fun hone => ?_
  obtain ⟨m, e, hm, hx⟩ := exists_of_beq_one hone
  rw [hs] at hx
  cases hx

theorem isInf_abs : x.abs.isInf = true := by
  obtain ⟨s, hs⟩ := isInf_iff.1 h
  rw [isInf_eq, unpack_abs, hs]
  rfl

theorem not_abs_lt_one_of_isInf : ¬ x.abs < 1 := by
  obtain ⟨s, hs⟩ := isInf_iff.1 h
  rw [lt_iff, unpack_abs, hs]
  simp [UnpackedFloat.abs, UnpackedFloat.compare]

end Infinity

theorem isNaN_of_isFinite {x : Float} (h : x.isFinite = true) : x.isNaN = false := by
  rw [isNaN_eq]
  rcases isFinite_iff.1 h with ⟨s, hx⟩ | ⟨s, m, e, hm, hx⟩
  · rw [hx]; rfl
  · rw [hx]; rfl

/-! ## Signs -/

theorem isFinite_neg (x : Float) : (-x).isFinite = x.isFinite := by
  rw [isFinite_eq, isFinite_eq, unpack_neg]
  cases unpack x <;> rfl

theorem isFinite_abs (x : Float) : x.abs.isFinite = x.isFinite := by
  rw [isFinite_eq, isFinite_eq, unpack_abs]
  cases unpack x <;> rfl

/-! ## Arithmetic -/

theorem isFinite_pack {u : UnpackedFloat} (h : u.isFinite = false) :
    (pack u).isFinite = false := by
  rw [isFinite_eq]
  cases u with
  | notANumber => rw [unpack_pack_notANumber, h]
  | infinity s => rw [unpack_pack_infinity, h]
  | zero s => cases h
  | finite s m e hm => cases h

section Parts

variable {u v : UnpackedFloat}

theorem isFinite_add_parts (h : u.isFinite = false ∨ v.isFinite = false) :
    (UnpackedFloat.add .binary64 u v).isFinite = false := by
  rcases u with (_ | _) | _ | _ | _ <;> rcases v with (_ | _) | _ | _ | _ <;>
    first | rfl | simp [UnpackedFloat.isFinite] at h

theorem isFinite_sub_parts (h : u.isFinite = false ∨ v.isFinite = false) :
    (UnpackedFloat.sub .binary64 u v).isFinite = false := by
  rcases u with (_ | _) | _ | _ | _ <;> rcases v with (_ | _) | _ | _ | _ <;>
    first | rfl | simp [UnpackedFloat.isFinite] at h

theorem isFinite_mul_parts (h : u.isFinite = false ∨ v.isFinite = false) :
    (UnpackedFloat.mul .binary64 u v).isFinite = false := by
  cases u <;> cases v <;> first | rfl | simp [UnpackedFloat.isFinite] at h

theorem isFinite_div_parts (h : u.isFinite = false) :
    (UnpackedFloat.div .binary64 u v).isFinite = false := by
  cases u <;> cases v <;> first | rfl | cases h

end Parts

variable {x y : Float}

theorem isFinite_add (h : x.isFinite = false ∨ y.isFinite = false) : (x + y).isFinite = false :=
  isFinite_pack (isFinite_add_parts h)

theorem isFinite_sub (h : x.isFinite = false ∨ y.isFinite = false) : (x - y).isFinite = false :=
  isFinite_pack (isFinite_sub_parts h)

theorem isFinite_mul (h : x.isFinite = false ∨ y.isFinite = false) : (x * y).isFinite = false :=
  isFinite_pack (isFinite_mul_parts h)

theorem isFinite_div (h : x.isFinite = false) : (x / y).isFinite = false :=
  isFinite_pack (isFinite_div_parts h)

/-- A finite number divided by an infinity vanishes. -/
theorem div_infinity (hx : x.isFinite = true) (hy : y.isInf = true) : (x / y == 0) = true := by
  have vanishes : ∃ s, UnpackedFloat.div .binary64 (unpack x) (unpack y) = .zero s := by
    obtain ⟨t, ht⟩ := isInf_iff.1 hy
    rw [ht]
    rcases isFinite_iff.1 hx with ⟨s, hs⟩ | ⟨s, m, e, hm, hs⟩
    · exact ⟨s / t, by rw [hs]; rfl⟩
    · exact ⟨s / t, by rw [hs]; rfl⟩
  obtain ⟨s, hs⟩ := vanishes
  refine beq_zero_iff.2 ⟨s, ?_⟩
  change unpack (pack (UnpackedFloat.div .binary64 (unpack x) (unpack y))) = _
  rw [hs, unpack_pack_zero]

end Formulary.Binary64
