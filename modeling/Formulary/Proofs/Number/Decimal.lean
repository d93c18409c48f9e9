import Formulary.Number.Text
import Formulary.Proofs.Number.Literal
import Mathlib.Algebra.Order.Floor.Semifield
import Mathlib.Data.List.DropRight
import Mathlib.Data.Rat.Floor

/-! # Decimal text read back

The text of a rational is the text of what is left when the rational is cut after some places.  It
holds nothing superfluous, and it is a literal, perhaps behind a minus sign, that is read as the
rational that was cut.  So an exact number with few enough places is shown without loss.

All this is for less than `2 ^ 32` places.  Their number is a word of thirty-two bits: of a larger
one the lower bits say where the rational is cut, while the places are written out in full.
-/

namespace Formulary

namespace Decimal

/-! ## Cutting -/

/-- The integer next to `q` on the side of zero. -/
def truncate (q : Rat) : Int :=
  if 0 ≤ q then ⌊q⌋ else ⌈q⌉

/-- `r` without what stands behind the given number of places. -/
def cut (places : Nat) (r : Rat) : Rat :=
  truncate (r * 10 ^ places) / 10 ^ places

theorem truncate_neg (q : Rat) : truncate (-q) = -truncate q := by
  unfold truncate
  rcases lt_trichotomy q 0 with h | rfl | h
  · rw [if_pos (by linarith), if_neg (by linarith), Int.floor_neg]
  · simp
  · rw [if_neg (by linarith), if_pos h.le, Int.ceil_neg]

@[simp] theorem truncate_intCast (n : Int) : truncate n = n := by
  simp [truncate]

theorem truncate_natCast_div (a b : Nat) : truncate ((a : Rat) / b) = (a / b : Nat) := by
  have nonneg : 0 ≤ (a : Rat) / b := by positivity
  rw [truncate, if_pos nonneg, ← Int.cast_natCast a, Rat.floor_intCast_div_natCast]
  rfl

theorem truncate_div (a : Int) (b : Nat) : truncate ((a : Rat) / b) = a.tdiv b := by
  obtain ⟨n, rfl | rfl⟩ := a.eq_nat_or_neg
  · exact truncate_natCast_div n b
  · rw [Int.cast_neg, neg_div, truncate_neg, Int.neg_tdiv]
    exact congrArg Neg.neg (truncate_natCast_div n b)

theorem truncate_scaled (places : Nat) (r : Rat) :
    truncate (r * 10 ^ (places % 2 ^ 32)) = (r.num * (powerOfTen places : Nat)).tdiv r.den := by
  have scaled : r * 10 ^ (places % 2 ^ 32) =
      ((r.num * (powerOfTen places : Nat) : Int) : Rat) / r.den := by
    conv_lhs => rw [← Rat.num_div_den r, div_mul_eq_mul_div]
    rw [Int.cast_mul, Int.cast_natCast, natCast_powerOfTen]
  rw [scaled, truncate_div]

theorem abs_cut (places : Nat) (r : Rat) :
    |cut places r| = (truncate (r * 10 ^ places)).natAbs / 10 ^ places := by
  rw [cut, abs_div, abs_of_pos (by positivity : (0 : Rat) < 10 ^ places), Nat.cast_natAbs,
    Int.cast_abs]

theorem natAbs_truncate (q : Rat) : (truncate q).natAbs = ⌊|q|⌋₊ := by
  have nonneg : ∀ {p : Rat}, 0 ≤ p → (truncate p).natAbs = ⌊p⌋₊ := fun {p} hp => by
    have floor : 0 ≤ ⌊p⌋ := Int.floor_nonneg.2 hp
    rw [truncate, if_pos hp, ← Int.floor_toNat]
    omega
  rcases le_total 0 q with h | h
  · rw [nonneg h, abs_of_nonneg h]
  · rw [abs_of_nonpos h, ← nonneg (neg_nonneg.2 h), truncate_neg, Int.natAbs_neg]

theorem abs_cut_le (places : Nat) (r : Rat) : |cut places r| ≤ |r| := by
  have pos : (0 : Rat) < 10 ^ places := by positivity
  rw [abs_cut, natAbs_truncate, div_le_iff₀ pos, abs_mul, abs_of_pos pos]
  exact Nat.floor_le (by positivity)

theorem cut_neg_iff (places : Nat) (r : Rat) :
    cut places r < 0 ↔ truncate (r * 10 ^ places) < 0 := by
  have pos : (0 : Rat) < 10 ^ places := by positivity
  rw [cut, div_lt_iff₀ pos, zero_mul, Int.cast_lt_zero]

/-- Nothing is lost exactly if there are no more places. -/
theorem cut_eq_self_iff (places : Nat) (r : Rat) :
    cut places r = r ↔ (r * 10 ^ places).den = 1 := by
  have pos : (0 : Rat) < 10 ^ places := by positivity
  rw [cut, div_eq_iff pos.ne', Rat.den_eq_one_iff]
  constructor
  · intro h
    rw [← h, Rat.num_intCast]
  · intro h
    rw [← h, truncate_intCast]

/-! ## Digits -/

@[simp] theorem value_digits (n : Nat) : value (digits n) = n :=
  Nat.ofDigitChars_ten_toDigits

theorem value_append (ds es : List Char) :
    value (ds ++ es) = 10 ^ es.length * value ds + value es := by
  rw [value, Nat.ofDigitChars_append, Nat.ofDigitChars_eq_ofDigitChars_zero]
  rfl

theorem value_replicate_zero (k : Nat) : value (List.replicate k '0') = 0 := by
  rw [value, Nat.ofDigitChars_replicate_zero, Nat.mul_zero]

theorem digits_valid (n : Nat) : Literal.Digits (digits n) :=
  ⟨Nat.toDigits_ne_nil, fun _ => Nat.isDigit_of_mem_toDigits (by decide) (by decide)⟩

/-- Only the text of zero begins with a zero. -/
theorem digits_lead {n : Nat} (h : (digits n).head? = some '0') : digits n = ['0'] := by
  induction n using Nat.strong_induction_on with
  | _ n ih =>
    rw [digits, Nat.toDigits_eq_if (by decide)] at h ⊢
    split at h
    · next small =>
      rw [if_pos small, ← Option.some.inj h]
    · next large =>
      -- the first digit is that of a tenth, which would have to be zero
      rw [List.head?_append_of_ne_nil _ Nat.toDigits_ne_nil] at h
      have tenth := congrArg value (ih (n / 10) (by omega) h)
      rw [value_digits] at tenth
      have zero : value ['0'] = 0 := rfl
      omega

/-! ## Zeros -/

@[simp] theorem value_padded (width n : Nat) : value (padded width n) = n := by
  rw [padded, value_append, value_replicate_zero, value_digits, Nat.mul_zero, Nat.zero_add]

theorem isDigit_of_mem_padded {width n : Nat} {c : Char} (h : c ∈ padded width n) :
    c.isDigit = true := by
  rcases List.mem_append.1 h with h | h
  · rw [List.eq_of_mem_replicate h]
    rfl
  · exact (digits_valid n).2 c h

theorem length_padded {width n : Nat} (hw : width ≠ 0) (h : n < 10 ^ width) :
    (padded width n).length = width := by
  have fits : (digits n).length ≤ width :=
    (Nat.length_toDigits_le_iff (by decide) (Nat.pos_of_ne_zero hw)).2 h
  simp [padded, fits]

theorem exists_dropZeros_append (ds : List Char) :
    ∃ k, dropZeros ds ++ List.replicate k '0' = ds := by
  have zeros : ∀ c ∈ ds.rtakeWhile (· == '0'), c = '0' := fun c hc => by
    simpa using List.mem_rtakeWhile_imp hc
  refine ⟨(ds.rtakeWhile (· == '0')).length, ?_⟩
  rw [← List.eq_replicate_of_mem zeros]
  exact List.rdropWhile_append_rtakeWhile

theorem getLast?_dropZeros (ds : List Char) : (dropZeros ds).getLast? ≠ some '0' := by
  intro h
  obtain ⟨hne, hlast⟩ := List.mem_getLast?_eq_getLast h
  exact List.rdropWhile_last_not (· == '0') ds hne (beq_iff_eq.2 hlast.symm)

theorem fractionDigits_eq_nil {places n : Nat} (h : n % powerOfTen places = 0) :
    fractionDigits places n = [] :=
  if_pos h

theorem fractionDigits_eq {places n : Nat} (h : n % powerOfTen places ≠ 0) :
    fractionDigits places n = dropZeros (padded places (n % powerOfTen places)) :=
  if_neg h

theorem isDigit_of_mem_fractionDigits {places n : Nat} {c : Char}
    (h : c ∈ fractionDigits places n) : c.isDigit = true := by
  by_cases rest : n % powerOfTen places = 0
  · rw [fractionDigits_eq_nil rest] at h
    cases h
  · rw [fractionDigits_eq rest] at h
    exact isDigit_of_mem_padded ((List.rdropWhile_prefix _ _).subset h)

theorem getLast?_fractionDigits (places n : Nat) :
    (fractionDigits places n).getLast? ≠ some '0' := by
  by_cases rest : n % powerOfTen places = 0
  · rw [fractionDigits_eq_nil rest]
    exact (Option.some_ne_none _).symm
  · rw [fractionDigits_eq rest]
    exact getLast?_dropZeros _

/-- The places are counted from the point on, however many zeros were dropped behind them. -/
theorem fractionDigits_spec (places n : Nat) :
    ∃ k, (fractionDigits places n).length + k = places ∧
      value (fractionDigits places n) * 10 ^ k = n % powerOfTen places := by
  by_cases rest : n % powerOfTen places = 0
  · rw [fractionDigits_eq_nil rest, rest]
    exact ⟨places, Nat.zero_add _, Nat.zero_mul _⟩
  · have places_ne : places ≠ 0 := by
      rintro rfl
      exact rest (Nat.mod_one n)
    have fits : n % powerOfTen places < 10 ^ places :=
      (Nat.mod_lt _ (powerOfTen_pos places)).trans_le
        (Nat.pow_le_pow_right (by norm_num) (Nat.mod_le _ _))
    obtain ⟨k, hk⟩ := exists_dropZeros_append (padded places (n % powerOfTen places))
    rw [← fractionDigits_eq rest] at hk
    have length := congrArg List.length hk
    rw [List.length_append, List.length_replicate, length_padded places_ne fits] at length
    have digits := congrArg value hk
    rw [value_append, value_replicate_zero, List.length_replicate, value_padded, Nat.add_zero,
      mul_comm] at digits
    exact ⟨k, length, digits⟩

/-- A number below a power of ten has fewer zeros at its end than the power. -/
theorem lt_of_mul_pow_eq_mod {places n m k : Nat} (rest : n % powerOfTen places ≠ 0)
    (h : m * 10 ^ k = n % powerOfTen places) : k < places % 2 ^ 32 := by
  have small : n % powerOfTen places < 10 ^ (places % 2 ^ 32) :=
    Nat.mod_lt _ (powerOfTen_pos places)
  have divides : 10 ^ k ≤ n % powerOfTen places :=
    Nat.le_of_dvd (Nat.pos_of_ne_zero rest) ⟨m, by rw [← h, mul_comm]⟩
  exact (Nat.pow_lt_pow_iff_right (by norm_num)).1 (divides.trans_lt small)

/-! ## Concise texts -/

/-- Digits of a whole number without superfluous zeros in front. -/
structure Whole (ds : List Char) : Prop where
  digits : Literal.Digits ds
  lead : ds.head? = some '0' → ds = ['0']

/-- The decimals with at most so many places in which nothing is superfluous: the last place is not
zero, and there is no point without places. -/
inductive Concise (places : Nat) : List Char → Prop where
  | whole {ds : List Char} : Whole ds → Concise places ds
  | pointed {ds es : List Char} : Whole ds → Literal.Digits es → es.length ≤ places →
      es.getLast? ≠ some '0' → Concise places (ds ++ '.' :: es)

theorem whole_digits (n : Nat) : Whole (digits n) :=
  ⟨digits_valid n, digits_lead⟩

theorem trimmed_eq (places n : Nat) :
    trimmed places n = digits (n / powerOfTen places) ++
      if fractionDigits places n = [] then [] else '.' :: fractionDigits places n := by
  simp only [trimmed, List.isEmpty_iff]

theorem concise_trimmed (places n : Nat) : Concise places (trimmed places n) := by
  rw [trimmed_eq]
  split
  · rw [List.append_nil]
    exact .whole (whole_digits _)
  · next hne =>
    obtain ⟨k, hlength, -⟩ := fractionDigits_spec places n
    exact .pointed (whole_digits _) ⟨hne, fun _ => isDigit_of_mem_fractionDigits⟩ (by omega)
      (getLast?_fractionDigits _ _)

/-- The trimmed text as a literal. -/
theorem exists_trimmed (places n : Nat) :
    ∃ p : Literal.Parts, p.text = trimmed places n ∧ p.shift = 0 ∧
      p.significand = value (digits (n / powerOfTen places) ++ fractionDigits places n) ∧
      p.places = (fractionDigits places n).length := by
  obtain ⟨fraction, hfraction, htext⟩ : ∃ fraction : Option (List Char),
      fraction.getD [] = fractionDigits places n ∧
        digits (n / powerOfTen places) ++ fraction.elim [] ('.' :: ·) = trimmed places n := by
    rw [trimmed_eq]
    split
    · next h => exact ⟨none, h.symm, rfl⟩
    · exact ⟨some (fractionDigits places n), rfl, rfl⟩
  have valid : Literal.Digits (digits (n / powerOfTen places) ++ fraction.getD []) := by
    rw [hfraction]
    refine ⟨List.append_ne_nil_of_left_ne_nil Nat.toDigits_ne_nil _, ?_⟩
    exact List.forall_mem_append.2
      ⟨(digits_valid _).2, fun _ => isDigit_of_mem_fractionDigits⟩
  refine ⟨⟨_, fraction, none, valid⟩, ?_, rfl, ?_, ?_⟩
  · rw [← htext]
    exact List.append_nil _
  · rw [Literal.Parts.significand, hfraction]
  · rw [Literal.Parts.places, hfraction]

/-- A trimmed text without a point is read as what stands in front of the point. -/
theorem read?_trimmed_whole {places n : Nat} (h : n % powerOfTen places = 0) :
    Literal.read? (trimmed places n) = some ((n / powerOfTen places : Nat) : Rat) := by
  obtain ⟨p, text, shift, significand, count⟩ := exists_trimmed places n
  rw [fractionDigits_eq_nil h] at significand count
  rw [← text, p.read?_text, Literal.Parts.reading, shift, significand, count, List.append_nil,
    value_digits]
  simp

/-- What stands behind the point of a trimmed text is read in full.  What stands in front of it is
too large by the places that are written beyond those that are counted. -/
theorem read?_trimmed_pointed {places n : Nat} (h : n % powerOfTen places ≠ 0) :
    Literal.read? (trimmed places n) =
      some ((n / powerOfTen places : Nat) * 10 ^ (places - places % 2 ^ 32) +
        (n % powerOfTen places : Nat) / powerOfTen places : Rat) := by
  obtain ⟨p, text, shift, significand, count⟩ := exists_trimmed places n
  obtain ⟨k, length, digits⟩ := fractionDigits_spec places n
  have below := lt_of_mul_pow_eq_mod h digits
  have counted : (fractionDigits places n).length % 2 ^ 32 = places % 2 ^ 32 - k := by omega
  have written : (fractionDigits places n).length =
      places - places % 2 ^ 32 + (places % 2 ^ 32 - k) := by omega
  have scale : (powerOfTen places : Rat) = 10 ^ (places % 2 ^ 32 - k) * 10 ^ k := by
    rw [natCast_powerOfTen, ← pow_add, Nat.sub_add_cancel below.le]
  rw [← text, p.read?_text, Literal.Parts.reading, shift, significand, count, value_append,
    value_digits, counted, written, scale, ← digits]
  push_cast
  rw [pow_add]
  field_simp

theorem natCast_div_powerOfTen (places n : Nat) :
    (n / powerOfTen places : Rat) =
      (n / powerOfTen places : Nat) + (n % powerOfTen places : Nat) / powerOfTen places := by
  have scale : (powerOfTen places : Rat) ≠ 0 := Nat.cast_ne_zero.2 (powerOfTen_pos places).ne'
  have parts : (n : Rat) = powerOfTen places * (n / powerOfTen places : Nat) +
      (n % powerOfTen places : Nat) := by exact_mod_cast (Nat.div_add_mod n _).symm
  rw [← mul_div_cancel_left₀ ((n / powerOfTen places : Nat) : Rat) scale, ← add_div, ← parts]

/-- With few enough places a trimmed text is read back. -/
theorem read?_trimmed {places n : Nat} (h : places < 2 ^ 32) :
    Literal.read? (trimmed places n) = some (n / 10 ^ places : Rat) := by
  have scale : (10 ^ places : Rat) = powerOfTen places := by
    rw [natCast_powerOfTen, Nat.mod_eq_of_lt h]
  rw [scale, natCast_div_powerOfTen]
  by_cases rest : n % powerOfTen places = 0
  · rw [read?_trimmed_whole rest, rest, Nat.cast_zero, zero_div, add_zero]
  · rw [read?_trimmed_pointed rest, Nat.mod_eq_of_lt h, Nat.sub_self, pow_zero, mul_one]

/-- Only the text of zero is read as zero. -/
theorem read?_trimmed_ne_zero {places n : Nat} (h : n ≠ 0) :
    Literal.read? (trimmed places n) ≠ some 0 := by
  have scale : (0 : Rat) < powerOfTen places := Nat.cast_pos.2 (powerOfTen_pos places)
  by_cases rest : n % powerOfTen places = 0
  · have whole : n / powerOfTen places ≠ 0 := fun zero =>
      h (by rw [← Nat.div_add_mod n (powerOfTen places), zero, rest, Nat.mul_zero])
    rw [read?_trimmed_whole rest, Ne, Option.some_inj]
    exact Nat.cast_ne_zero.2 whole
  · have fraction : (0 : Rat) < (n % powerOfTen places : Nat) / powerOfTen places :=
      div_pos (Nat.cast_pos.2 (Nat.pos_of_ne_zero rest)) scale
    rw [read?_trimmed_pointed rest, Ne, Option.some_inj]
    positivity

/-- The text of a whole number is its digits. -/
theorem trimmed_mul (places n : Nat) : trimmed places (n * powerOfTen places) = digits n := by
  rw [trimmed_eq, if_pos (fractionDigits_eq_nil (Nat.mul_mod_left n _)), List.append_nil,
    Nat.mul_div_cancel _ (powerOfTen_pos places)]

/-! ## Signs -/

/-- The text without a minus sign in front. -/
def unsigned : List Char → List Char
  | '-' :: cs => cs
  | cs => cs

/-- A literal, perhaps behind a minus sign. -/
def readSigned? : List Char → Option Rat
  | '-' :: cs => (Literal.read? cs).map (- ·)
  | cs => Literal.read? cs

theorem Concise.head?_ne {places : Nat} {cs : List Char} (h : Concise places cs) :
    cs.head? ≠ some '-' := by
  have digit : ∀ {ds es : List Char}, Whole ds → (ds ++ es).head? ≠ some '-' := by
    intro ds es hds
    rw [List.head?_append_of_ne_nil _ hds.digits.1]
    intro hminus
    cases hds.digits.2 '-' (List.mem_of_mem_head? hminus)
  cases h with
  | whole hds =>
    have := @digit cs [] hds
    rwa [List.append_nil] at this
  | pointed hds => exact digit hds

theorem unsigned_eq {cs : List Char} (h : cs.head? ≠ some '-') : unsigned cs = cs := by
  unfold unsigned
  split
  · exact absurd rfl h
  · rfl

theorem readSigned?_eq {cs : List Char} (h : cs.head? ≠ some '-') :
    readSigned? cs = Literal.read? cs := by
  unfold readSigned?
  split
  · exact absurd rfl h
  · rfl

end Decimal

open Decimal

theorem toList_decimalText (places : Nat) (r : Rat) :
    (decimalText places r).toList =
      if cut (places % 2 ^ 32) r < 0 then
        '-' :: trimmed places (truncate (r * 10 ^ (places % 2 ^ 32))).natAbs
      else trimmed places (truncate (r * 10 ^ (places % 2 ^ 32))).natAbs := by
  rw [decimalText, String.toList_ofList, ← truncate_scaled]
  exact if_congr (cut_neg_iff _ r).symm rfl rfl

theorem head?_decimalText (places : Nat) (r : Rat) :
    (decimalText places r).toList.head? = some '-' ↔ cut (places % 2 ^ 32) r < 0 := by
  rw [toList_decimalText]
  split
  · next neg => exact iff_of_true rfl neg
  · next nonneg => exact iff_of_false (concise_trimmed _ _).head?_ne nonneg

theorem unsigned_decimalText (places : Nat) (r : Rat) :
    unsigned (decimalText places r).toList =
      trimmed places (truncate (r * 10 ^ (places % 2 ^ 32))).natAbs := by
  rw [toList_decimalText]
  split
  · rfl
  · exact unsigned_eq (concise_trimmed _ _).head?_ne

/-! ## Few places -/

theorem read?_decimalText {places : Nat} (h : places < 2 ^ 32) (r : Rat) :
    Literal.read? (unsigned (decimalText places r).toList) = some |cut places r| := by
  rw [unsigned_decimalText, Nat.mod_eq_of_lt h, read?_trimmed h, abs_cut]

theorem readSigned?_decimalText {places : Nat} (h : places < 2 ^ 32) (r : Rat) :
    readSigned? (decimalText places r).toList = some (cut places r) := by
  have read := read?_decimalText h r
  rw [unsigned_decimalText] at read
  rw [toList_decimalText, Nat.mod_eq_of_lt h] at *
  split
  · next neg =>
    rw [readSigned?, read, abs_of_neg neg, Option.map_some, neg_neg]
  · next nonneg =>
    rw [readSigned?_eq (concise_trimmed _ _).head?_ne, read, abs_of_nonneg (not_lt.1 nonneg)]

/-- Integers are written by their digits alone. -/
theorem decimalText_intCast (places : Nat) (n : Int) : decimalText places n = toString n := by
  have product : (n : Rat) * 10 ^ (places % 2 ^ 32) = (n * powerOfTen places : Int) := by
    rw [Int.cast_mul, Int.cast_natCast, natCast_powerOfTen]
  have whole : cut (places % 2 ^ 32) n = n :=
    (cut_eq_self_iff _ n).2 (by rw [product, Rat.den_intCast])
  have scaled : (truncate ((n : Rat) * 10 ^ (places % 2 ^ 32))).natAbs =
      n.natAbs * powerOfTen places := by
    rw [product, truncate_intCast, Int.natAbs_mul, Int.natAbs_natCast]
  apply String.toList_injective
  rw [toList_decimalText, whole, scaled, trimmed_mul]
  change _ = n.repr.toList
  rw [Int.repr_eq_if, Nat.repr_eq_ofList_toDigits, Nat.repr_eq_ofList_toDigits]
  by_cases neg : n < 0
  · have size : (-n).toNat = n.natAbs := by omega
    rw [if_pos (Int.cast_lt_zero.2 neg), if_neg (not_le.2 neg), String.toList_append,
      String.toList_ofList, String.toList_ofList, size]
    rfl
  · have size : n.toNat = n.natAbs := by omega
    rw [if_neg (mt Int.cast_lt_zero.1 neg), if_pos (not_lt.1 neg), String.toList_ofList, size]
    rfl

theorem Number.text_exact (r : Rat) : (exact r).text = decimalText 12 r := by
  rw [text]
  split
  · next h =>
    have integer : (r.num : Rat) = r := (Rat.den_eq_one_iff r).1 (beq_iff_eq.1 h)
    rw [← decimalText_intCast 12, integer]
  · rfl

/-! ## Too many places -/

theorem natAbs_truncate_div (places : Nat) (r : Rat) :
    (truncate (r * 10 ^ (places % 2 ^ 32))).natAbs / powerOfTen places = ⌊|r|⌋₊ := by
  have pos : (0 : Rat) < 10 ^ (places % 2 ^ 32) := by positivity
  rw [natAbs_truncate, ← Nat.floor_div_natCast, natCast_powerOfTen, abs_mul, abs_of_pos pos,
    mul_div_cancel_right₀ _ pos.ne']

theorem natAbs_truncate_mod_eq_zero_iff (places : Nat) (r : Rat) :
    (truncate (r * 10 ^ (places % 2 ^ 32))).natAbs % powerOfTen places = 0 ↔
      (cut (places % 2 ^ 32) r).den = 1 := by
  have scale : (10 ^ (places % 2 ^ 32) : Rat) = ((powerOfTen places : Int) : Rat) := by
    rw [Int.cast_natCast, natCast_powerOfTen]
  have pos : (powerOfTen places : Int) ≠ 0 := Int.natCast_ne_zero.2 (powerOfTen_pos places).ne'
  rw [cut, scale, Rat.den_div_intCast_eq_one_iff _ _ pos, Int.natCast_dvd,
    Nat.dvd_iff_mod_eq_zero]

theorem abs_cut_eq (places : Nat) (r : Rat) :
    |cut (places % 2 ^ 32) r| =
      ⌊|r|⌋₊ + ((truncate (r * 10 ^ (places % 2 ^ 32))).natAbs % powerOfTen places : Nat) /
        powerOfTen places := by
  rw [abs_cut, ← natAbs_truncate_div, ← natCast_div_powerOfTen, natCast_powerOfTen]

/-- A text with nothing on one side of the point is read as it was cut. -/
theorem read?_decimalText_of_one_sided {places : Nat} {r : Rat}
    (h : |r| < 1 ∨ (cut (places % 2 ^ 32) r).den = 1) :
    Literal.read? (unsigned (decimalText places r).toList) = some |cut (places % 2 ^ 32) r| := by
  rw [unsigned_decimalText, abs_cut_eq]
  by_cases rest : (truncate (r * 10 ^ (places % 2 ^ 32))).natAbs % powerOfTen places = 0
  · rw [read?_trimmed_whole rest, natAbs_truncate_div, rest, Nat.cast_zero, zero_div, add_zero]
  · have small := h.resolve_right (mt (natAbs_truncate_mod_eq_zero_iff places r).2 rest)
    rw [read?_trimmed_pointed rest, natAbs_truncate_div, Nat.floor_eq_zero.2 small, Nat.cast_zero,
      zero_mul]

/-- A text with something on both sides of the point is read as too large a number. -/
theorem exists_read?_decimalText {places : Nat} {r : Rat} (h : 2 ^ 32 ≤ places) (hr : 1 ≤ |r|)
    (hc : (cut (places % 2 ^ 32) r).den ≠ 1) :
    ∃ q, Literal.read? (unsigned (decimalText places r).toList) = some q ∧ |r| < q := by
  have rest := mt (natAbs_truncate_mod_eq_zero_iff places r).1 hc
  refine ⟨_, by rw [unsigned_decimalText, read?_trimmed_pointed rest, natAbs_truncate_div], ?_⟩
  have floor : (1 : Rat) ≤ ⌊|r|⌋₊ := Nat.one_le_cast.2 (Nat.one_le_floor_iff _ |>.2 hr)
  have stretch : (10 : Rat) ≤ 10 ^ (places - places % 2 ^ 32) :=
    le_self_pow₀ (by norm_num) (by omega)
  calc |r| < ⌊|r|⌋₊ + 1 := Nat.lt_floor_add_one _
    _ ≤ ⌊|r|⌋₊ * 10 := by linarith
    _ ≤ ⌊|r|⌋₊ * 10 ^ (places - places % 2 ^ 32) := by gcongr
    _ ≤ _ := le_add_of_nonneg_right (by positivity)

/-- Too many places do no harm if none of them is needed and there is nothing on one side of the
point. -/
theorem read?_decimalText_iff {places : Nat} {r : Rat} (h : 2 ^ 32 ≤ places) :
    Literal.read? (unsigned (decimalText places r).toList) = some |cut places r| ↔
      |cut (places % 2 ^ 32) r| = |cut places r| ∧ (|r| < 1 ∨ (cut places r).den = 1) := by
  by_cases one_sided : |r| < 1 ∨ (cut (places % 2 ^ 32) r).den = 1
  · rw [read?_decimalText_of_one_sided one_sided, Option.some_inj]
    refine ⟨fun same => ⟨same, ?_⟩, And.left⟩
    rwa [← Rat.den_abs_eq_den (cut places r), ← same, Rat.den_abs_eq_den]
  · obtain ⟨hr, hc⟩ := not_or.1 one_sided
    obtain ⟨q, read, large⟩ := exists_read?_decimalText h (not_lt.1 hr) hc
    rw [read, Option.some_inj]
    refine iff_of_false ((abs_cut_le places r).trans_lt large).ne' fun ⟨same, side⟩ => one_sided ?_
    rwa [← Rat.den_abs_eq_den, same, Rat.den_abs_eq_den]

/-- The text of a rational is a concise decimal, perhaps behind a minus sign.  With less than
`2 ^ 32` places the sign is there exactly if something below zero is left of the rational when it is
cut, and the decimal is read as what is left; with more places this is so only if the lower bits of
their number are enough and there is nothing on one side of the point.  The text of an exact number
is read as that number exactly if it has no more than twelve places. -/
theorem read_decimalText (r : Rat) :
    (∀ places,
      ((((decimalText places r).toList.head? = some '-' ↔ cut places r < 0) ∧
          Literal.read? (unsigned (decimalText places r).toList) = some |cut places r|) ↔
        places < 2 ^ 32 ∨
          cut (places % 2 ^ 32) r = cut places r ∧ (|r| < 1 ∨ (cut places r).den = 1)) ∧
      Concise places (unsigned (decimalText places r).toList) ∧
      decimalText places r ≠ "-0") ∧
    (readSigned? (Number.exact r).text.toList = some r ↔ (r * 10 ^ 12).den = 1) := by
  refine ⟨fun places => ⟨?_, ?_, fun hzero => ?_⟩, ?_⟩
  · rw [head?_decimalText]
    rcases lt_or_ge places (2 ^ 32) with few | many
    · rw [read?_decimalText few, Nat.mod_eq_of_lt few]
      exact iff_of_true ⟨Iff.rfl, rfl⟩ (.inl few)
    · rw [read?_decimalText_iff many, or_iff_right many.not_gt, ← and_assoc]
      refine and_congr_left' ⟨fun ⟨sign, same⟩ => ?_, fun same => by rw [same]; exact ⟨.rfl, rfl⟩⟩
      -- numbers of one sign with one magnitude are equal
      rcases lt_or_ge (cut places r) 0 with neg | nonneg
      · rw [abs_of_neg neg, abs_of_neg (sign.2 neg)] at same
        exact neg_injective same
      · rwa [abs_of_nonneg nonneg, abs_of_nonneg (not_lt.1 (mt sign.1 nonneg.not_gt))] at same
  · rw [unsigned_decimalText]
    exact concise_trimmed _ _
  · have sign := head?_decimalText places r
    have text := unsigned_decimalText places r
    rw [hzero] at sign text
    have negative := (cut_neg_iff _ r).1 (sign.1 rfl)
    have zero : Literal.read? (unsigned "-0".toList) = some 0 := by decide +kernel
    rw [text] at zero
    exact read?_trimmed_ne_zero (Int.natAbs_ne_zero.2 negative.ne) zero
  · rw [Number.text_exact, readSigned?_decimalText (by norm_num), Option.some_inj, cut_eq_self_iff]

theorem cut_tenth {places : Nat} (h : places ≠ 0) : cut places (1 / 10) = 1 / 10 := by
  obtain ⟨k, rfl⟩ := Nat.exists_eq_succ_of_ne_zero h
  rw [cut_eq_self_iff, pow_succ', ← mul_assoc, one_div_mul_cancel (by norm_num), one_mul,
    ← Nat.cast_ofNat, ← Nat.cast_pow, Rat.den_natCast]

/-- With `2 ^ 32` places the number is scaled by `10 ^ 0`, and a tenth is cut to zero. -/
theorem decimalText_too_many_places :
    decimalText (2 ^ 32) (1 / 10) = "0" ∧ cut (2 ^ 32) (1 / 10) = 1 / 10 ∧
      Literal.read? (unsigned (decimalText (2 ^ 32) (1 / 10)).toList) ≠
        some |cut (2 ^ 32) (1 / 10)| := by
  have text : decimalText (2 ^ 32) (1 / 10) = "0" := by decide +kernel
  have zero : Literal.read? (unsigned "0".toList) = some 0 := by decide +kernel
  have tenth := @cut_tenth (2 ^ 32) (by norm_num)
  refine ⟨text, tenth, ?_⟩
  rw [text, tenth, zero]
  norm_num

end Formulary
