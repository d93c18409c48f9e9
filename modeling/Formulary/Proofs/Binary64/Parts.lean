import Formulary.Binary64.Arith
import Formulary.Binary64.Word
import Mathlib

/-! # Floats by their parts

Packing keeps the parts that fit the format, and makes an infinity of a number beyond the range.
So what an operation does to a float can be read off its parts.
-/

namespace Formulary.Binary64

open Float.Model
open Float.Model.UnpackedFloat

/-- A mantissa and an exponent that floats have: 53 bits, or fewer at the least exponent. -/
structure Fits (m : Nat) (e : Int) : Prop where
  upper : m < 2 ^ 53
  lower : 2 ^ 52 ≤ m ∨ e = -1074
  least : -1074 ≤ e
  most : e ≤ 971

/-! ## Packing -/

theorem unpack_pack_eq (u : UnpackedFloat) :
    unpack (pack u) = UnpackedFloat.unpack .binary64 (UnpackedFloat.pack .binary64 u) := rfl

@[simp] theorem unpack_pack_notANumber : unpack (pack .notANumber) = .notANumber := rfl

@[simp] theorem unpack_pack_zero (s : UnpackedFloat.Sign) : unpack (pack (.zero s)) = .zero s :=
  unpack_packedZero

@[simp] theorem unpack_pack_infinity (s : UnpackedFloat.Sign) :
    unpack (pack (.infinity s)) = .infinity s := by
  cases s with
  | negative => rfl
  | positive => rfl

theorem unpack_subnormal (s : UnpackedFloat.Sign) (m : BitVec 52) (h : 0 < m.toNat) :
    UnpackedFloat.unpack .binary64 (packComponents .binary64 s 0#11 m) =
      .finite s m.toNat (-1074) h := by
  have nonzero : m ≠ 0#52 := by
    rintro rfl
    exact absurd h (by decide)
  have below : (0#11 : BitVec Format.binary64.exponentBits) ≠ -1#11 := by decide
  unfold UnpackedFloat.unpack
  simp only [unpackMantissa_packComponents, unpackExponent_packComponents,
    unpackSign_packComponents, UnpackedFloat.Sign.ofBitVec_toBitVec]
  exact (if_neg below).trans (dif_neg nonzero)

theorem unpack_normal (s : UnpackedFloat.Sign) (e : BitVec 11) (m : BitVec 52)
    (h0 : e ≠ 0#11) (h1 : e ≠ -1#11) (h : 0 < (1#1 ++ m).toNat) :
    UnpackedFloat.unpack .binary64 (packComponents .binary64 s e m) =
      .finite s (1#1 ++ m).toNat (e.toNat - 1075) h := by
  unfold UnpackedFloat.unpack
  simp only [unpackMantissa_packComponents, unpackExponent_packComponents,
    unpackSign_packComponents, UnpackedFloat.Sign.ofBitVec_toBitVec]
  exact (if_neg h1).trans (if_neg h0)

/-- A mantissa of 53 bits with its first bit taken off, as it is written. -/
theorem exists_implicitBit {m : Nat} (lower : 2 ^ 52 ≤ m) (upper : m < 2 ^ 53) :
    ∃ word : BitVec 52, (1#1 ++ word).toNat = m := by
  norm_num at lower upper
  refine ⟨BitVec.ofNat 52 (m - 4503599627370496), ?_⟩
  rw [toNat_implicitBit, BitVec.toNat_ofNat]
  omega

/-- The exponent of a number that is not subnormal, as it is written. -/
theorem exists_biased {e : Int} (least : -1074 ≤ e) (most : e ≤ 971) :
    ∃ place : BitVec 11, place ≠ 0#11 ∧ place ≠ -1#11 ∧ (place.toNat : Int) - 1075 = e := by
  have hplace : (BitVec.ofNat 11 (e + 1075).toNat).toNat = (e + 1075).toNat := by
    rw [BitVec.toNat_ofNat]
    omega
  refine ⟨BitVec.ofNat 11 (e + 1075).toNat, fun h => ?_, fun h => ?_, by omega⟩
  · rw [h] at hplace
    have : 0 = (e + 1075).toNat := hplace
    omega
  · rw [h] at hplace
    have : 2047 = (e + 1075).toNat := hplace
    omega

theorem unpack_pack_finite {s : UnpackedFloat.Sign} {m : Nat} {e : Int} (hm : 0 < m)
    (h : Fits m e) :
    unpack (pack (.finite s m e hm)) = .finite s m e hm := by
  rw [unpack_pack_eq]
  by_cases normal : 2 ^ 52 ≤ m
  · obtain ⟨word, rfl⟩ := exists_implicitBit normal h.upper
    obtain ⟨place, h0, h1, rfl⟩ := exists_biased h.least h.most
    rw [pack_normal s place word h1, unpack_normal s place word h0 h1]
  · obtain rfl : e = -1074 := h.lower.resolve_left normal
    obtain ⟨word, rfl⟩ : ∃ word : BitVec 52, word.toNat = m :=
      ⟨BitVec.ofNatLT m (not_le.1 normal), rfl⟩
    rw [pack_subnormal, unpack_subnormal]

theorem unpack_pack_beyond {s : UnpackedFloat.Sign} {m : Nat} {e : Int} (hm : 0 < m) (h : 971 < e) :
    unpack (pack (.finite s m e hm)) = .infinity s := by
  have packed : UnpackedFloat.pack .binary64 (.finite s m e hm) =
      UnpackedFloat.pack .binary64 (.infinity s) := by
    change (if 2048 ≤ (e + 1023 + 52).toNat + 1 then packedInfinity .binary64 s else _) = _
    exact if_pos (by omega)
  rw [unpack_pack_eq, packed, ← unpack_pack_eq, unpack_pack_infinity]

/-! ## Unpacking -/

theorem fits_subnormal {m : BitVec 52} : Fits m.toNat (-1074) where
  upper := m.isLt.trans (by norm_num)
  lower := .inr rfl
  least := by norm_num
  most := by norm_num

theorem fits_normal {e : BitVec 11} {m : BitVec 52} (h0 : e ≠ 0#11) (h1 : e ≠ -1#11) :
    Fits (1#1 ++ m).toNat (e.toNat - 1075) := by
  have hm := m.isLt
  have he := e.isLt
  have hbits := toNat_implicitBit m
  have positive : e.toNat ≠ 0 := fun h => h0 (BitVec.eq_of_toNat_eq h)
  have small : e.toNat ≠ 2047 := fun h => h1 (BitVec.eq_of_toNat_eq h)
  norm_num at hm he
  constructor
  · omega
  · omega
  · omega
  · omega

theorem fits_of_unpack {x : Float} {s : UnpackedFloat.Sign} {m : Nat} {e : Int} {hm : 0 < m}
    (h : unpack x = .finite s m e hm) : Fits m e := by
  unfold unpack Float.Model.unpack UnpackedFloat.unpack at h
  simp only at h
  split at h
  · split at h <;> cases h
  next h1 =>
  split at h
  · next h0 =>
    split at h
    · cases h
    · cases h
      rw [h0]
      exact fits_subnormal
  · next h0 =>
    cases h
    exact fits_normal h0 h1

/-- The parts of a float. -/
inductive Canonical : UnpackedFloat → Prop where
  | notANumber : Canonical .notANumber
  | infinity (s : UnpackedFloat.Sign) : Canonical (.infinity s)
  | zero (s : UnpackedFloat.Sign) : Canonical (.zero s)
  | finite (s : UnpackedFloat.Sign) {m : Nat} {e : Int} (hm : 0 < m) :
      Fits m e → Canonical (.finite s m e hm)

theorem canonical_unpack (x : Float) : Canonical (unpack x) := by
  cases h : unpack x with
  | notANumber => exact .notANumber
  | infinity s => exact .infinity s
  | zero s => exact .zero s
  | finite s m e hm => exact .finite s hm (fits_of_unpack h)

theorem unpack_pack {u : UnpackedFloat} (h : Canonical u) : unpack (pack u) = u := by
  cases h with
  | notANumber => exact unpack_pack_notANumber
  | infinity s => exact unpack_pack_infinity s
  | zero s => exact unpack_pack_zero s
  | finite s hm h => exact unpack_pack_finite hm h

theorem Canonical.neg {u : UnpackedFloat} (h : Canonical u) : Canonical u.neg := by
  cases h with
  | notANumber => exact .notANumber
  | infinity s => exact .infinity _
  | zero s => exact .zero _
  | finite s hm h => exact .finite _ hm h

theorem Canonical.abs {u : UnpackedFloat} (h : Canonical u) : Canonical u.abs := by
  cases h with
  | notANumber => exact .notANumber
  | infinity s => exact .infinity _
  | zero s => exact .zero _
  | finite s hm h => exact .finite _ hm h

@[simp] theorem neg_negative : -UnpackedFloat.Sign.negative = .positive := rfl

@[simp] theorem neg_positive : -UnpackedFloat.Sign.positive = .negative := rfl

theorem unpack_neg (x : Float) : unpack (-x) = (unpack x).neg :=
  unpack_pack (canonical_unpack x).neg

theorem unpack_abs (x : Float) : unpack x.abs = (unpack x).abs :=
  unpack_pack (canonical_unpack x).abs

theorem unpack_injective {x y : Float} (h : unpack x = unpack y) : x = y := by
  have bits := (unpack_inj_of_valid x.toModel.valid y.toModel.valid).1 h
  exact Float.toBits_inj.1 (UInt64.toBitVec_inj.1 bits)

/-! ## Tests -/

@[simp] theorem unpack_zero : unpack 0 = .zero .positive := rfl

@[simp] theorem unpack_one : unpack 1 = .finite .positive (2 ^ 52) (-52) (by decide) := rfl

theorem lt_iff {x y : Float} : x < y ↔ (unpack x).compare (unpack y) = some .lt := by
  change decide (x.toModel < y.toModel) = true ↔ _
  rw [decide_eq_true_iff]
  exact beq_iff_eq

theorem beq_iff {x y : Float} : (x == y) = true ↔ (unpack x).compare (unpack y) = some .eq := by
  change ((unpack x).compare (unpack y) == some .eq) = true ↔ _
  exact beq_iff_eq

theorem isFinite_eq (x : Float) : x.isFinite = (unpack x).isFinite := rfl

theorem isInf_eq (x : Float) : x.isInf = (unpack x).isInf := rfl

theorem isNaN_eq (x : Float) : x.isNaN = (unpack x).isNaN := rfl

theorem isInf_iff {x : Float} : x.isInf = true ↔ ∃ s, unpack x = .infinity s := by
  rw [isInf_eq]
  cases unpack x <;> simp [UnpackedFloat.isInf]

theorem isFinite_iff {x : Float} :
    x.isFinite = true ↔ (∃ s, unpack x = .zero s) ∨ ∃ s m e hm, unpack x = .finite s m e hm := by
  rw [isFinite_eq]
  cases unpack x <;> simp [UnpackedFloat.isFinite, *]

theorem beq_zero_iff {x : Float} : (x == 0) = true ↔ ∃ s, unpack x = .zero s := by
  rw [beq_iff, unpack_zero]
  rcases unpack x with (_ | _) | _ | _ | ⟨_ | _, _, _, _⟩ <;> simp [UnpackedFloat.compare, *]

theorem exists_of_beq_one {x : Float} (h : (x == 1) = true) :
    ∃ m e hm, unpack x = .finite .positive m e hm := by
  rw [beq_iff, unpack_one] at h
  rcases hx : unpack x with (_ | _) | _ | _ | ⟨_ | _, m, e, hm⟩ <;> rw [hx] at h
  case finite.positive => exact ⟨m, e, hm, rfl⟩
  all_goals cases h

theorem lt_zero_iff {x : Float} :
    x < 0 ↔ unpack x = .infinity .negative ∨ ∃ m e hm, unpack x = .finite .negative m e hm := by
  rw [lt_iff, unpack_zero]
  rcases unpack x with (_ | _) | _ | _ | ⟨_ | _, _, _, _⟩ <;> simp [UnpackedFloat.compare, *]

theorem zero_lt_iff {x : Float} :
    0 < x ↔ unpack x = .infinity .positive ∨ ∃ m e hm, unpack x = .finite .positive m e hm := by
  rw [lt_iff, unpack_zero]
  rcases unpack x with (_ | _) | _ | _ | ⟨_ | _, _, _, _⟩ <;> simp [UnpackedFloat.compare, *]

end Formulary.Binary64
