import Formulary.Number.Literal
import Formulary.Operator
import Mathlib.Algebra.Field.Rat
import Mathlib.Tactic.NormNum

/-! # The form of a literal

A literal is a mantissa, which is digits with at most one point among them, and perhaps an exponent
behind it.  Every text of this form is read, unless its exponent is beyond the limit, and nothing
else is.  It is read as its value, unless it has so many places that their number does not fit into
thirty-two bits.
-/

namespace Formulary

namespace Decimal

theorem powerOfTen_eq (exponent : Nat) : powerOfTen exponent = 10 ^ (exponent % 2 ^ 32) :=
  rfl

theorem powerOfTen_of_lt {exponent : Nat} (h : exponent < 2 ^ 32) :
    powerOfTen exponent = 10 ^ exponent := by
  rw [powerOfTen_eq, Nat.mod_eq_of_lt h]

theorem powerOfTen_pos (exponent : Nat) : 0 < powerOfTen exponent :=
  Nat.pow_pos (by norm_num)

theorem natCast_powerOfTen (exponent : Nat) :
    (powerOfTen exponent : Rat) = 10 ^ (exponent % 2 ^ 32) := by
  rw [powerOfTen_eq, Nat.cast_pow, Nat.cast_ofNat]

end Decimal

namespace Literal

/-- Are there digits, and nothing else? -/
def Digits (cs : List Char) : Prop :=
  cs ≠ [] ∧ ∀ c ∈ cs, c.isDigit = true

instance (cs : List Char) : Decidable (Digits cs) :=
  decidable_of_iff (cs ≠ [] ∧ cs.all Char.isDigit = true) (and_congr_right' List.all_eq_true)

/-- The texts in front of an exponent. -/
inductive IsMantissa : List Char → Prop where
  | whole {ds : List Char} : Digits ds → IsMantissa ds
  | pointed {ds es : List Char} : Digits (ds ++ es) → IsMantissa (ds ++ '.' :: es)

/-- The texts behind a mantissa. -/
inductive IsExponent : List Char → Prop where
  | none : IsExponent []
  | digits {mark : Char} (sign : Option Sign) {ds : List Char} :
    isExponentMark mark = true → Digits ds →
      IsExponent (mark :: ((sign.map Sign.symbol).toList ++ ds))

theorem IsMantissa.digit_or_point {m : List Char} (h : IsMantissa m) :
    ∀ c ∈ m, c.isDigit = true ∨ c = '.' := by
  cases h with
  | whole hds => exact fun c hc => .inl (hds.2 c hc)
  | @pointed ds es hds =>
    obtain ⟨hd, he⟩ := List.forall_mem_append.1 hds.2
    refine List.forall_mem_append.2 ⟨fun c hc => .inl (hd c hc), List.forall_mem_cons.2 ?_⟩
    exact ⟨.inr rfl, fun c hc => .inl (he c hc)⟩

theorem IsMantissa.exists_digit {m : List Char} (h : IsMantissa m) :
    ∃ c ∈ m, c.isDigit = true := by
  cases h with
  | whole hds =>
    obtain ⟨c, hc⟩ := List.exists_mem_of_ne_nil _ hds.1
    exact ⟨c, hc, hds.2 c hc⟩
  | @pointed ds es hds =>
    obtain ⟨c, hc⟩ := List.exists_mem_of_ne_nil _ hds.1
    refine ⟨c, ?_, hds.2 c hc⟩
    exact ((List.sublist_cons_self '.' es).append_left ds).subset hc

theorem IsMantissa.count_point {m : List Char} (h : IsMantissa m) : m.count '.' ≤ 1 := by
  have none : ∀ {ds : List Char}, (∀ c ∈ ds, c.isDigit = true) → ds.count '.' = 0 := fun hds =>
    List.count_eq_zero.2 fun hmem => absurd (hds '.' hmem) (by decide)
  cases h with
  | whole hds => simp [none hds.2]
  | pointed hds =>
    obtain ⟨hd, he⟩ := List.forall_mem_append.1 hds.2
    simp [none hd, none he]

/-! ## Parts -/

/-- An exponent within the limit. -/
structure Exponent where
  mark : Char
  sign : Option Sign
  digits : List Char
  marked : isExponentMark mark = true
  valid : Digits digits
  bounded : Decimal.value digits ≤ 16384

namespace Exponent

def text (x : Exponent) : List Char :=
  x.mark :: ((x.sign.map Sign.symbol).toList ++ x.digits)

/-- What a sign makes of the number behind it. -/
def signed : Option Sign → Int → Int
  | some .minus => fun k => -k
  | some .plus | none => fun k => k

def value (x : Exponent) : Int :=
  signed x.sign (Decimal.value x.digits)

theorem isExponent (x : Exponent) : IsExponent x.text :=
  .digits x.sign x.marked x.valid

theorem natAbs_value_le (x : Exponent) : x.value.natAbs ≤ 16384 := by
  have bounded := x.bounded
  rw [value]
  cases x.sign with
  | none => exact bounded
  | some s =>
    cases s with
    | plus => exact bounded
    | minus => rwa [signed, Int.natAbs_neg]

end Exponent

/-- What a literal is written with. -/
structure Parts where
  /-- The digits in front of the point. -/
  whole : List Char
  /-- The digits behind the point, if there is one. -/
  fraction : Option (List Char)
  exponent : Option Exponent
  valid : Digits (whole ++ fraction.getD [])

namespace Parts

variable (p : Parts)

def mantissa : List Char :=
  p.whole ++ p.fraction.elim [] ('.' :: ·)

def text : List Char :=
  p.mantissa ++ p.exponent.elim [] Exponent.text

/-- The digits read as one natural number. -/
def significand : Nat :=
  Decimal.value (p.whole ++ p.fraction.getD [])

/-- The number of digits behind the point. -/
def places : Nat :=
  (p.fraction.getD []).length

/-- The exponent of ten behind the digits. -/
def shift : Int :=
  p.exponent.elim 0 Exponent.value

/-- The digits read as one natural number, with the point and the exponent taken into account. -/
def value : Rat :=
  p.significand / 10 ^ p.places * 10 ^ p.shift

/-- What the value becomes when the places are counted in thirty-two bits. -/
def reading : Rat :=
  p.significand / 10 ^ (p.places % 2 ^ 32) * 10 ^ p.shift

theorem isMantissa : IsMantissa p.mantissa := by
  obtain ⟨whole, fraction, -, valid⟩ := p
  cases fraction with
  | none =>
    rw [Option.getD_none] at valid
    rw [mantissa, Option.elim_none]
    exact .whole valid
  | some fraction => exact .pointed valid

theorem isExponent : IsExponent (p.exponent.elim [] Exponent.text) := by
  cases p.exponent with
  | none => exact .none
  | some x => exact x.isExponent

theorem natAbs_shift_le : p.shift.natAbs ≤ 16384 := by
  rw [shift]
  cases p.exponent with
  | none => exact Nat.zero_le _
  | some x => exact x.natAbs_value_le

theorem places_le_length : p.places ≤ p.text.length := by
  rw [places, text, mantissa, List.length_append, List.length_append]
  cases p.fraction with
  | none => exact Nat.zero_le _
  | some fraction =>
    rw [Option.getD_some, Option.elim_some, List.length_cons]
    omega

/-- The count of the places matters unless there are only zeros. -/
theorem reading_eq_value_iff : p.reading = p.value ↔ p.places < 2 ^ 32 ∨ p.significand = 0 := by
  have ten : (10 : Rat) ^ p.shift ≠ 0 := zpow_ne_zero _ (by norm_num)
  rw [reading, value, mul_left_inj' ten]
  by_cases zero : p.significand = 0
  · simp [zero]
  · rw [div_eq_mul_inv, div_eq_mul_inv, mul_right_inj' (Nat.cast_ne_zero.2 zero), inv_inj,
      pow_right_inj₀ (by norm_num) (by norm_num), Nat.mod_eq_iff_lt (by norm_num)]
    exact (or_iff_left zero).symm

end Parts

/-! ## Reading -/

theorem scaled_eq (n places : Nat) {k : Int} (hk : k.natAbs ≤ 16384) :
    scaled n places k = (n : Rat) / 10 ^ (places % 2 ^ 32) * 10 ^ k := by
  -- only the places can be too many: the exponent is within its limit
  rw [scaled, Rat.mkRat_eq_div, Decimal.powerOfTen_eq places, Decimal.powerOfTen_of_lt (by omega),
    Decimal.powerOfTen_of_lt (by omega)]
  obtain ⟨a, rfl | rfl⟩ := k.eq_nat_or_neg
  · simp [mul_div_right_comm]
  · simp [div_mul_eq_div_div, ← div_eq_mul_inv]

/-- What is taken as long as a test holds, where a text is followed by nothing or by a character
that fails the test. -/
theorem takeWhile_dropWhile_append {p : Char → Bool} {xs ys : List Char}
    (hxs : ∀ c ∈ xs, p c = true) (hys : ∀ c ∈ ys.head?, p c = false) :
    (xs ++ ys).takeWhile p = xs ∧ (xs ++ ys).dropWhile p = ys := by
  rw [List.takeWhile_append_of_pos hxs, List.dropWhile_append_of_pos hxs]
  cases ys with
  | nil => exact ⟨List.append_nil xs, rfl⟩
  | cons c cs => simp [hys c rfl]

theorem Parts.splitPoint_mantissa (p : Parts) :
    splitPoint p.mantissa = (p.whole, p.fraction.getD []) := by
  have whole : ∀ c ∈ p.whole, (c != '.') = true := by
    intro c hc
    have := p.valid.2 c (List.mem_append_left _ hc)
    rw [bne_iff_ne]
    rintro rfl
    cases this
  rw [mantissa, splitPoint]
  cases p.fraction with
  | none =>
    obtain ⟨take, drop⟩ := @takeWhile_dropWhile_append _ _ [] whole (by simp)
    rw [Option.elim_none, take, drop]
    rfl
  | some ds =>
    obtain ⟨take, drop⟩ := @takeWhile_dropWhile_append _ _ ('.' :: ds) whole (by simp)
    rw [Option.elim_some, take, drop]
    rfl

theorem exists_splitPoint (cs : List Char) :
    ∃ fraction : Option (List Char), (splitPoint cs).2 = fraction.getD [] ∧
      cs = (splitPoint cs).1 ++ fraction.elim [] ('.' :: ·) := by
  have parts := List.takeWhile_append_dropWhile (p := (· != '.')) (l := cs)
  cases hrest : cs.dropWhile (· != '.') with
  | nil =>
    rw [hrest] at parts
    exact ⟨none, by simp [splitPoint, hrest], parts.symm⟩
  | cons c fraction =>
    obtain rfl : c = '.' := by
      have := List.head?_dropWhile_not (· != '.') cs
      simpa [hrest] using this
    rw [hrest] at parts
    exact ⟨some fraction, by simp [splitPoint, hrest], parts.symm⟩

theorem mantissa?_eq_some_iff {cs : List Char} {m : Nat × Nat} :
    mantissa? cs = some m ↔
      Digits ((splitPoint cs).1 ++ (splitPoint cs).2) ∧
        m = (Decimal.value ((splitPoint cs).1 ++ (splitPoint cs).2), (splitPoint cs).2.length) := by
  obtain ⟨whole, fraction, hsplit⟩ : ∃ whole fraction, splitPoint cs = (whole, fraction) :=
    ⟨_, _, rfl⟩
  have digits : Digits (whole ++ fraction) ↔
      ¬(whole.isEmpty && fraction.isEmpty) = true ∧
        (whole.all Char.isDigit && fraction.all Char.isDigit) = true := by
    simp [Digits, or_imp, forall_and]
  simp only [mantissa?, hsplit, digits]
  split
  · simp [*]
  · split
    · simp [*, eq_comm]
    · simp [*]

theorem exists_of_mantissa? {cs : List Char} {n places : Nat}
    (h : mantissa? cs = some (n, places)) :
    ∃ (whole : List Char) (fraction : Option (List Char)),
      cs = whole ++ fraction.elim [] ('.' :: ·) ∧ Digits (whole ++ fraction.getD []) ∧
        n = Decimal.value (whole ++ fraction.getD []) ∧ places = (fraction.getD []).length := by
  obtain ⟨valid, hm⟩ := mantissa?_eq_some_iff.1 h
  obtain ⟨hn, hplaces⟩ := Prod.mk.inj hm
  obtain ⟨fraction, hfraction, htext⟩ := exists_splitPoint cs
  rw [hfraction] at valid hn hplaces
  exact ⟨(splitPoint cs).1, fraction, htext, valid, hn, hplaces⟩

theorem exponentDigits?_eq_some_iff {cs : List Char} {k : Int} :
    ((exponentDigits? cs : Option Nat) : Option Int) = some k ↔
      Digits cs ∧ Decimal.value cs ≤ maxExponent ∧ k = Decimal.value cs := by
  have limits : (!cs.isEmpty && cs.all Char.isDigit && decide (Decimal.value cs ≤ maxExponent)) =
      true ↔ Digits cs ∧ Decimal.value cs ≤ maxExponent := by
    simp [Digits, and_assoc]
  rw [exponentDigits?, ← and_assoc, ← limits]
  split
  · next h =>
    rw [h, and_iff_right rfl]
    exact Option.some_inj.trans eq_comm
  · next h => exact iff_of_false (by rintro ⟨⟩) fun hs => h hs.1

theorem Exponent.exponent?_eq (x : Exponent) :
    exponent? ((x.sign.map Sign.symbol).toList ++ x.digits) = some x.value := by
  have digits := congrArg (Option.map (signed x.sign))
    (exponentDigits?_eq_some_iff.2 ⟨x.valid, x.bounded, rfl⟩)
  rw [value]
  cases hsign : x.sign with
  | some s =>
    rw [hsign] at digits
    cases s with
    | plus => exact digits
    | minus => exact digits
  | none =>
    rw [hsign] at digits
    rw [Option.map_none, Option.toList_none, List.nil_append]
    unfold exponent?
    split
    · next h => cases x.valid.2 '-' (h ▸ List.mem_cons_self)
    · next h => cases x.valid.2 '+' (h ▸ List.mem_cons_self)
    · exact digits

theorem exists_exponent {mark : Char} (hmark : isExponentMark mark = true) {cs : List Char}
    {k : Int} (h : exponent? cs = some k) : ∃ x : Exponent, x.text = mark :: cs ∧ x.value = k := by
  have build : ∀ (sign : Option Sign) {ds : List Char},
      ((exponentDigits? ds : Option Nat) : Option Int).map (Exponent.signed sign) = some k →
        ∃ x : Exponent, x.text = mark :: ((sign.map Sign.symbol).toList ++ ds) ∧ x.value = k := by
    intro sign ds h
    obtain ⟨n, hn, rfl⟩ := Option.map_eq_some_iff.1 h
    obtain ⟨valid, bounded, rfl⟩ := exponentDigits?_eq_some_iff.1 hn
    exact ⟨⟨mark, sign, ds, hmark, valid, bounded⟩, rfl, rfl⟩
  unfold exponent? at h
  split at h
  · exact build (some .minus) h
  · exact build (some .plus) h
  · exact build none h

theorem not_isExponentMark {c : Char} (h : c.isDigit = true ∨ c = '.') :
    isExponentMark c = false := by
  refine Bool.eq_false_iff.2 fun hmark => ?_
  simp only [isExponentMark, Bool.or_eq_true, beq_iff_eq] at hmark
  rcases hmark with rfl | rfl
  · rcases h with h | h <;> cases h
  · rcases h with h | h <;> cases h

/-- Every literal is read. -/
theorem Parts.read?_text (p : Parts) : read? p.text = some p.reading := by
  have mantissa : ∀ c ∈ p.mantissa, (!isExponentMark c) = true := fun c hc => by
    rw [not_isExponentMark (p.isMantissa.digit_or_point c hc)]
    rfl
  have mark : ∀ c ∈ (p.exponent.elim [] Exponent.text).head?, (!isExponentMark c) = false := by
    cases p.exponent with
    | none => simp
    | some x => simp [Exponent.text, x.marked]
  obtain ⟨take, drop⟩ := takeWhile_dropWhile_append mantissa mark
  have digits := mantissa?_eq_some_iff.2 ⟨by rw [p.splitPoint_mantissa]; exact p.valid, rfl⟩
  have bounded := p.natAbs_shift_le
  rw [read?, text, take, drop, digits, p.splitPoint_mantissa, reading, ← scaled_eq _ _ bounded,
    shift]
  cases p.exponent with
  | none => rfl
  | some x =>
    simp only [Exponent.text, Option.elim_some, x.exponent?_eq, Option.map_some]
    rfl

/-- Every text that is read is a literal. -/
theorem exists_parts_of_read? {cs : List Char} {r : Rat} (h : read? cs = some r) :
    ∃ p : Parts, p.text = cs ∧ p.reading = r := by
  have parts := List.takeWhile_append_dropWhile (p := (!isExponentMark ·)) (l := cs)
  rw [read?] at h
  split at h
  · cases h
  next n places hmantissa =>
  obtain ⟨whole, fraction, htext, valid, rfl, rfl⟩ := exists_of_mantissa? hmantissa
  rw [htext] at parts
  split at h
  next hrest =>
    rw [hrest] at parts
    refine ⟨⟨whole, fraction, none, valid⟩, parts, ?_⟩
    rw [← Option.some.inj h, scaled_eq _ _ (Nat.zero_le _)]
    rfl
  next mark exponent hrest =>
    have hmark : isExponentMark mark = true := by
      have := List.head?_dropWhile_not (!isExponentMark ·) cs
      simpa [hrest] using this
    obtain ⟨k, hk, rfl⟩ := Option.map_eq_some_iff.1 h
    obtain ⟨x, hx, rfl⟩ := exists_exponent hmark hk
    rw [hrest, ← hx] at parts
    exact ⟨⟨whole, fraction, some x, valid⟩, parts, (scaled_eq _ _ x.natAbs_value_le).symm⟩

/-- A text that is read as a literal is a mantissa and perhaps an exponent. -/
theorem exists_of_read? {cs : List Char} {r : Rat} (h : read? cs = some r) :
    ∃ m x, cs = m ++ x ∧ IsMantissa m ∧ IsExponent x := by
  obtain ⟨p, rfl, -⟩ := exists_parts_of_read? h
  exact ⟨_, _, rfl, p.isMantissa, p.isExponent⟩

/-- The texts that are read are the literals.  Each is read as its value with the places counted in
thirty-two bits, which is its value exactly if there are fewer places than that or only zeros. -/
theorem read_literal (cs : List Char) :
    (∀ r, read? cs = some r ↔ ∃ p : Parts, p.text = cs ∧ p.reading = r) ∧
      ((∀ r, read? cs = some r ↔ ∃ p : Parts, p.text = cs ∧ p.value = r) ↔
        ∀ p : Parts, p.text = cs → p.places < 2 ^ 32 ∨ p.significand = 0) := by
  have read : ∀ r, read? cs = some r ↔ ∃ p : Parts, p.text = cs ∧ p.reading = r := by
    refine fun r => ⟨exists_parts_of_read?, ?_⟩
    rintro ⟨p, rfl, rfl⟩
    exact p.read?_text
  refine ⟨read, fun claim p hp => ?_, fun few r => ?_⟩
  · have value := (claim p.value).2 ⟨p, hp, rfl⟩
    rw [(read p.reading).2 ⟨p, hp, rfl⟩] at value
    exact p.reading_eq_value_iff.1 (Option.some.inj value)
  · rw [read]
    refine exists_congr fun p => and_congr_right fun hp => ?_
    rw [p.reading_eq_value_iff.2 (few p hp)]

/-- `.50E+0003` -/
def fiveHundred : Parts where
  whole := []
  fraction := some ['5', '0']
  exponent := some ⟨'E', some .plus, ['0', '0', '0', '3'], rfl, by decide, by decide⟩
  valid := by decide

theorem read_five_hundred : read? ".50E+0003".toList = some 500 := by
  have value : fiveHundred.value = 500 := by
    have significand : fiveHundred.significand = 50 := rfl
    have shift : fiveHundred.shift = 3 := rfl
    rw [Parts.value, significand, shift]
    norm_num [Parts.places, fiveHundred]
  have few : ∀ p : Parts, p.text = ".50E+0003".toList → p.places < 2 ^ 32 ∨ p.significand = 0 :=
    fun p hp => .inl (p.places_le_length.trans_lt (by rw [hp]; decide))
  exact ((read_literal _).2.2 few 500).2 ⟨fiveHundred, rfl, value⟩

/-- The literal `0.00…01` with so many zeros behind the point. -/
def leastPlace (zeros : Nat) : Parts where
  whole := ['0']
  fraction := some (List.replicate zeros '0' ++ ['1'])
  exponent := none
  valid := by
    have zero : ∀ c ∈ ['0'], c.isDigit = true := List.forall_mem_singleton.2 rfl
    have one : ∀ c ∈ ['1'], c.isDigit = true := List.forall_mem_singleton.2 rfl
    refine ⟨List.cons_ne_nil _ _, List.forall_mem_append.2 ⟨zero, ?_⟩⟩
    refine List.forall_mem_append.2 ⟨fun c hc => ?_, one⟩
    rw [List.eq_of_mem_replicate hc]
    rfl

theorem leastPlace_significand (zeros : Nat) : (leastPlace zeros).significand = 1 := by
  change Decimal.value (List.replicate (zeros + 1) '0' ++ ['1']) = 1
  rw [Decimal.value, Nat.ofDigitChars_append, Nat.ofDigitChars_replicate_zero, Nat.mul_zero]
  rfl

theorem leastPlace_places (zeros : Nat) : (leastPlace zeros).places = zeros + 1 := by
  simp [Parts.places, leastPlace]

/-- With `2 ^ 32` places the digits are divided by `10 ^ 0`. -/
theorem read_too_many_places :
    (leastPlace (2 ^ 32 - 1)).text = '0' :: '.' :: (List.replicate (2 ^ 32 - 1) '0' ++ ['1']) ∧
      (leastPlace (2 ^ 32 - 1)).value = 1 / 10 ^ 2 ^ 32 ∧
      read? (leastPlace (2 ^ 32 - 1)).text = some 1 ∧
      read? (leastPlace (2 ^ 32 - 1)).text ≠ some (leastPlace (2 ^ 32 - 1)).value := by
  have significand := leastPlace_significand (2 ^ 32 - 1)
  have places : (leastPlace (2 ^ 32 - 1)).places = 2 ^ 32 := leastPlace_places (2 ^ 32 - 1)
  have shift : (leastPlace (2 ^ 32 - 1)).shift = 0 := rfl
  refine ⟨List.append_nil _, ?_, ?_, ?_⟩
  · rw [Parts.value, significand, places, shift, zpow_zero, mul_one, Nat.cast_one]
  · rw [Parts.read?_text, Parts.reading, significand, places, shift, Nat.mod_self, pow_zero,
      zpow_zero, mul_one, Nat.cast_one, div_one]
  · rw [Parts.read?_text, Ne, Option.some_inj, Parts.reading_eq_value_iff, significand, places]
    omega

end Literal

end Formulary
