/-! # Binary64 words

A float is written as a word of 64 bits.  Every float has a word that is read as that float again.
The converse fails for NaN alone: it is a single float, and has many words of either sign.
-/

namespace Formulary.Binary64

open Float.Model Float.Model.UnpackedFloat

/-- Is the sign bit of a word set?  So for negative numbers, `-0`, `-∞` and half of the NaNs. -/
def signBit (w : UInt64) : Bool :=
  w.toBitVec.msb

/-! ## Reading a word back

A word is made of a sign, an exponent and a mantissa.  The exponent decides which kind of float it
is, and for each kind the three parts are found again.
-/

theorem toBitVec_signOfBit (b : BitVec 1) : (Sign.ofBitVec b).toBitVec = b := by
  revert b; decide

theorem sign_exponent_mantissa (b : BitVec 64) :
    b.extractLsb 63 63 ++ b.extractLsb 62 52 ++ b.extractLsb 51 0 = b := by
  apply BitVec.eq_of_getLsbD_eq
  intro i hi
  simp only [BitVec.getLsbD_append, BitVec.getLsbD_extractLsb]
  split
  · grind
  · split <;> grind

theorem packComponents_parts (b : BitVec Format.binary64.numBits) :
    packComponents .binary64 (.ofBitVec (unpackSign b)) (unpackExponent b) (unpackMantissa b)
      = b := by
  change (Sign.ofBitVec (unpackSign b)).toBitVec ++ unpackExponent b ++ unpackMantissa b = b
  rw [toBitVec_signOfBit]
  exact sign_exponent_mantissa b

/-- The implicit bit stands above the 52 bits of the mantissa that are written. -/
theorem toNat_implicitBit (m : BitVec 52) : (1#1 ++ m).toNat = 4503599627370496 + m.toNat := by
  rw [BitVec.toNat_append, ← Nat.shiftLeft_add_eq_or_of_lt m.isLt]
  rfl

theorem pack_subnormal (s : Sign) (m : BitVec 52) (h : 0 < m.toNat) :
    UnpackedFloat.pack .binary64 (.finite s m.toNat (-1074) h) =
      packComponents .binary64 s 0#11 m := by
  have hlog : m.toNat.log2 < 52 := (Nat.log2_lt (by omega)).mpr m.isLt
  change (if 2048 ≤ 1 + 1 then packedInfinity .binary64 s
    else if m.toNat.log2 + 1 = 53 then
      packComponents .binary64 s (BitVec.ofNat 11 1) (BitVec.ofNat 52 m.toNat)
    else packComponents .binary64 s 0#11 (BitVec.ofNat 52 m.toNat)) = _
  rw [if_neg (by decide), if_neg (by omega), BitVec.ofNat_toNat, BitVec.setWidth_eq]

theorem pack_normal (s : Sign) (e : BitVec 11) (m : BitVec 52) (he : e ≠ -1#11)
    (h : 0 < (1#1 ++ m).toNat) :
    UnpackedFloat.pack .binary64 (.finite s (1#1 ++ m).toNat (e.toNat - 1075) h) =
      packComponents .binary64 s e m := by
  have hm := toNat_implicitBit m
  have hlog : (1#1 ++ m).toNat.log2 = 52 := by
    have lower : 52 ≤ (1#1 ++ m).toNat.log2 := (Nat.le_log2 (by omega)).mpr (by omega)
    have upper : (1#1 ++ m).toNat.log2 < 53 := (Nat.log2_lt (by omega)).mpr (by omega)
    omega
  have place : ((e.toNat - 1075 : Int) + 1023 + 52).toNat = e.toNat := by omega
  have small : e.toNat ≠ 2047 := fun h => he (BitVec.eq_of_toNat_eq h)
  change (if 2048 ≤ ((e.toNat - 1075 : Int) + 1023 + 52).toNat + 1 then packedInfinity .binary64 s
    else if (1#1 ++ m).toNat.log2 + 1 = 53 then
      packComponents .binary64 s (BitVec.ofNat 11 ((e.toNat - 1075 : Int) + 1023 + 52).toNat)
        (BitVec.ofNat 52 (1#1 ++ m).toNat)
    else packComponents .binary64 s 0#11 (BitVec.ofNat 52 (1#1 ++ m).toNat)) = _
  rw [place, hlog, if_neg (by omega), if_pos rfl, BitVec.ofNat_toNat, BitVec.setWidth_eq]
  congr 1
  apply BitVec.eq_of_toNat_eq
  rw [BitVec.toNat_ofNat, hm]
  omega

/-- Taking a word apart and putting it together again gives the word, if its NaN is the one that
floats have. -/
theorem pack_unpack (b : BitVec Format.binary64.numBits) (h : Format.binary64.Valid b) :
    UnpackedFloat.pack .binary64 (UnpackedFloat.unpack .binary64 b) = b := by
  have parts := packComponents_parts b
  by_cases he : unpackExponent b = -1#11
  · by_cases hm : unpackMantissa b = 0#52
    · have u : UnpackedFloat.unpack .binary64 b = .infinity (.ofBitVec (unpackSign b)) :=
        (if_pos he).trans (if_pos hm)
      rw [he, hm] at parts
      rw [u]
      exact parts
    · have u : UnpackedFloat.unpack .binary64 b = .notANumber :=
        (if_pos he).trans (if_neg hm)
      rw [u]
      exact (h.eq_packedNaN he hm).symm
  · by_cases h0 : unpackExponent b = 0#11
    · by_cases hm : unpackMantissa b = 0#52
      · have u : UnpackedFloat.unpack .binary64 b = .zero (.ofBitVec (unpackSign b)) :=
          (if_neg he).trans ((if_pos h0).trans (dif_pos hm))
        rw [h0, hm] at parts
        rw [u]
        exact parts
      · have positive : 0 < (unpackMantissa b).toNat := by
          have : (unpackMantissa b).toNat ≠ 0 := fun h => hm (BitVec.eq_of_toNat_eq h)
          omega
        have place : ((unpackExponent b).toNat : Int) - 1075 + 1 = -1074 := by rw [h0]; rfl
        have u : UnpackedFloat.unpack .binary64 b = .finite (.ofBitVec (unpackSign b))
            (unpackMantissa b).toNat ((unpackExponent b).toNat - 1075 + 1) positive :=
          (if_neg he).trans ((if_pos h0).trans (dif_neg hm))
        rw [h0] at parts
        rw [u, place]
        exact (pack_subnormal _ _ _).trans parts
    · have positive : 0 < (1#1 ++ unpackMantissa b).toNat := by
        have : (1#1 ++ unpackMantissa b).toNat = _ := toNat_implicitBit (unpackMantissa b)
        omega
      have u : UnpackedFloat.unpack .binary64 b = .finite (.ofBitVec (unpackSign b))
          (1#1 ++ unpackMantissa b).toNat ((unpackExponent b).toNat - 1075) positive :=
        (if_neg he).trans (if_neg h0)
      rw [u]
      exact (pack_normal _ _ _ he _).trans parts

theorem ofModel_eq_of_toBits_eq {m n : Float.Model} (h : m.toBits = n.toBits) :
    Float.ofModel m = Float.ofModel n := by
  cases m; cases n; cases h; rfl

/-- The word of a float is read as that float. -/
@[simp] theorem ofBits_toBits (x : Float) : Float.ofBits x.toBits = x :=
  ofModel_eq_of_toBits_eq (congrArg UInt64.ofBitVec (pack_unpack _ x.toModel.valid))

end Formulary.Binary64
