import Formulary.Proofs.Skeleton.Trace
import Mathlib.Order.Bounds.Image

/-! # Formulas that are refused

Which formulas cannot be cut, and where they fail, said of their characters alone: a formula is
refused at its first placeholder, or else at the first blank that separates two operands, or else,
at its beginning, if it is blank.  The sign of an exponent counts as an operator here, although it
belongs to a run: it stands between a mark and a digit, and so never at a blank.
-/

namespace Formulary

/-- Has the text at `i` a character that satisfies `p`? -/
def HasAt (p : Char → Bool) (text : List Char) (i : Nat) : Prop :=
  ∃ c, text[i]? = some c ∧ p c = true

namespace HasAt

variable {p : Char → Bool} {xs ys : List Char} {i : Nat}

theorem lt (h : HasAt p xs i) : i < xs.length := by
  obtain ⟨c, hc, -⟩ := h
  exact (List.getElem?_eq_some_iff.1 hc).1

theorem append_left (hi : i < xs.length) : HasAt p (xs ++ ys) i ↔ HasAt p xs i := by
  rw [HasAt, List.getElem?_append_left hi, HasAt]

theorem append_right : HasAt p (xs ++ ys) (xs.length + i) ↔ HasAt p ys i := by
  rw [HasAt, List.getElem?_append_right (Nat.le_add_right _ _), Nat.add_sub_cancel_left, HasAt]

theorem of_forall (h : ∀ c ∈ xs, p c = true) (hi : i < xs.length) : HasAt p xs i :=
  ⟨xs[i], List.getElem?_eq_getElem hi, h _ (List.getElem_mem hi)⟩

/-- No character is of two kinds that exclude each other. -/
theorem disjoint {q : Char → Bool} (hpq : ∀ c, p c = true → q c = false) (h : HasAt p xs i) :
    ¬HasAt q xs i := by
  rintro ⟨c, hc, hq⟩
  obtain ⟨d, hd, hp⟩ := h
  obtain rfl : c = d := Option.some.inj (hc.symm.trans hd)
  rw [hpq c hp] at hq
  cases hq

end HasAt

/-- Is `c` neither blank nor an operator, a bracket or a comma? -/
def isOperandChar (c : Char) : Bool :=
  !isBlank c && !Piece.isSymbolChar c

theorem isOperandChar_iff {c : Char} :
    isOperandChar c = true ↔ isBlank c = false ∧ Piece.isSymbolChar c = false := by
  simp [isOperandChar]

theorem HasAt.not_isBlank {text : List Char} {i : Nat} (h : HasAt isOperandChar text i) :
    ¬HasAt isBlank text i :=
  h.disjoint fun _ hc => (isOperandChar_iff.1 hc).1

theorem HasAt.not_isSymbolChar {text : List Char} {i : Nat} (h : HasAt isOperandChar text i) :
    ¬HasAt Piece.isSymbolChar text i :=
  h.disjoint fun _ hc => (isOperandChar_iff.1 hc).2

/-- Is the character at `k` a blank, with characters of operands before it at `i` and behind it at
`j`, and with no operator, bracket or comma between these? -/
structure BlankBetween (text : List Char) (i k j : Nat) : Prop where
  lt : i < k
  gt : k < j
  left : HasAt isOperandChar text i
  blank : HasAt isBlank text k
  right : HasAt isOperandChar text j
  not_symbol : ∀ m, i < m → m < j → ¬HasAt Piece.isSymbolChar text m

/-- Is an operator missing at `k`, where a blank stands between operands? -/
def Separates (text : List Char) (k : Nat) : Prop :=
  ∃ i j, BlankBetween text i k j

/-! ## The first of some positions -/

/-- Is this the least element of the set, or nothing if the set is empty? -/
def IsFirst (s : Set Nat) : Option Nat → Prop
  | none => s = ∅
  | some k => IsLeast s k

namespace IsFirst

variable {s t : Set Nat} {o o' : Option Nat}

theorem eq_none_iff (h : IsFirst s o) : o = none ↔ s = ∅ := by
  cases o with
  | none => exact iff_of_true rfl h
  | some k => exact iff_of_false (Option.some_ne_none k) (Set.Nonempty.ne_empty ⟨k, h.1⟩)

theorem eq_some_iff (h : IsFirst s o) {k : Nat} : o = some k ↔ IsLeast s k := by
  cases o with
  | none =>
    refine iff_of_false (Option.some_ne_none k).symm fun hk => ?_
    exact Set.Nonempty.ne_empty ⟨k, hk.1⟩ h
  | some j =>
    rw [Option.some_inj]
    exact ⟨fun hjk => hjk ▸ h, h.unique⟩

theorem image_add (h : IsFirst s o) (i : Nat) : IsFirst ((i + ·) '' s) (o.map (i + ·)) := by
  cases o with
  | none => exact Set.image_eq_empty.2 h
  | some k => exact Monotone.map_isLeast (fun _ _ hle => Nat.add_le_add_left hle i) h

theorem union (h : IsFirst s o) (h' : IsFirst t o') (hle : ∀ j ∈ s, ∀ k ∈ t, j ≤ k) :
    IsFirst (s ∪ t) (o.or o') := by
  cases o with
  | none =>
    obtain rfl : s = ∅ := h
    rwa [Set.empty_union]
  | some j =>
    refine ⟨.inl h.1, ?_⟩
    rintro k (hk | hk)
    · exact h.2 hk
    · exact hle j h.1 k hk

end IsFirst

theorem isFirst_findIdx? (p : Char → Bool) (text : List Char) :
    IsFirst {i | HasAt p text i} (text.findIdx? p) := by
  cases h : text.findIdx? p with
  | none =>
    refine Set.eq_empty_iff_forall_notMem.2 fun i ⟨c, hc, hp⟩ => ?_
    rw [List.findIdx?_eq_none_iff.1 h c (List.mem_of_getElem? hc)] at hp
    cases hp
  | some i =>
    obtain ⟨hi, hp, hfirst⟩ := List.findIdx?_eq_some_iff_getElem.1 h
    refine ⟨⟨_, List.getElem?_eq_getElem hi, hp⟩, fun j ⟨c, hc, hpc⟩ => ?_⟩
    obtain ⟨hj, rfl⟩ := List.getElem?_eq_some_iff.1 hc
    exact Nat.le_of_not_lt fun hlt => hfirst j hlt hpc

/-! ## Parts of a text -/

namespace BlankBetween

variable {xs ys : List Char} {i k j : Nat}

/-- Only the characters up to the second operand count, wherever they stand. -/
theorem shift_iff {n : Nat}
    (same : ∀ {p : Char → Bool} {m : Nat}, m ≤ j → (HasAt p xs (n + m) ↔ HasAt p ys m)) :
    BlankBetween xs (n + i) (n + k) (n + j) ↔ BlankBetween ys i k j := by
  constructor
  · rintro ⟨hik, hkj, hi, hk, hj, hsym⟩
    refine ⟨by omega, by omega, (same (by omega)).1 hi, (same (by omega)).1 hk,
      (same (Nat.le_refl j)).1 hj, fun m him hmj hm => ?_⟩
    exact hsym (n + m) (by omega) (by omega) ((same hmj.le).2 hm)
  · rintro ⟨hik, hkj, hi, hk, hj, hsym⟩
    refine ⟨by omega, by omega, (same (by omega)).2 hi, (same hkj.le).2 hk,
      (same (Nat.le_refl j)).2 hj, fun m him hmj hm => ?_⟩
    obtain ⟨m, rfl⟩ := Nat.exists_eq_add_of_le (show n ≤ m by omega)
    exact hsym m (by omega) (by omega) ((same (by omega)).1 hm)

theorem append_left (hj : j < xs.length) :
    BlankBetween (xs ++ ys) i k j ↔ BlankBetween xs i k j := by
  have := @shift_iff (xs ++ ys) xs i k j 0 fun hm => by
    rw [Nat.zero_add, HasAt.append_left (hm.trans_lt hj)]
  simpa only [Nat.zero_add] using this

theorem append_right :
    BlankBetween (xs ++ ys) (xs.length + i) (xs.length + k) (xs.length + j) ↔
      BlankBetween ys i k j :=
  shift_iff fun _ => HasAt.append_right

/-- Both operands are on one side of an operator, a bracket or a comma. -/
theorem of_append_symbol {sym : List Char} (hne : sym ≠ [])
    (hsym : ∀ c ∈ sym, Piece.isSymbolChar c = true)
    (h : BlankBetween (xs ++ sym ++ ys) i k j) : j < xs.length ∨ (xs ++ sym).length ≤ i := by
  have pos := List.length_pos_iff.2 hne
  have length := @List.length_append _ xs sym
  have middle {m : Nat} (hle : xs.length ≤ m) (hlt : m < (xs ++ sym).length) :
      HasAt Piece.isSymbolChar (xs ++ sym ++ ys) m := by
    obtain ⟨n, rfl⟩ := Nat.exists_eq_add_of_le hle
    rw [HasAt.append_left hlt, HasAt.append_right]
    exact .of_forall hsym (by omega)
  have outside {m : Nat} (hm : HasAt isOperandChar (xs ++ sym ++ ys) m) :
      m < xs.length ∨ (xs ++ sym).length ≤ m := by
    by_contra hin
    exact hm.not_isSymbolChar (middle (by omega) (by omega))
  rcases outside h.left with hi | hi
  · refine (outside h.right).imp id fun hj => ?_
    exact absurd (middle (Nat.le_refl _) (by omega)) (h.not_symbol xs.length hi (by omega))
  · exact .inr hi

end BlankBetween

namespace Separates

/-- A blank between two operands with only blanks around it separates them. -/
theorem of_append {xs bs ys : List Char} {c d : Char} (hc : isOperandChar c = true)
    (hd : isOperandChar d = true) (hne : bs ≠ []) (hbs : ∀ x ∈ bs, isBlank x = true) :
    Separates (xs ++ c :: (bs ++ d :: ys)) (xs.length + 1) := by
  have inside {m : Nat} (hm : m < bs.length) : HasAt isBlank (c :: (bs ++ d :: ys)) (m + 1) :=
    (HasAt.append_left hm).2 (.of_forall hbs hm)
  have pos := List.length_pos_iff.2 hne
  refine ⟨xs.length + 0, xs.length + (bs.length + 1), BlankBetween.append_right.2 ?_⟩
  refine ⟨by omega, by omega, ⟨c, rfl, hc⟩, inside pos, ⟨d, by simp, hd⟩, fun m hpos hlt => ?_⟩
  obtain ⟨n, rfl⟩ := Nat.exists_eq_add_one.2 hpos
  exact (inside (by omega)).disjoint fun _ => Piece.isSymbolChar_of_isBlank

/-- What separates operands on both sides of an operator, a bracket or a comma. -/
theorem append_symbol {xs sym ys : List Char} (hne : sym ≠ [])
    (hsym : ∀ c ∈ sym, Piece.isSymbolChar c = true) :
    {k | Separates (xs ++ (sym ++ ys)) k} =
      {k | Separates xs k} ∪ (xs.length + sym.length + ·) '' {k | Separates ys k} := by
  rw [← List.append_assoc, ← List.length_append]
  ext k
  constructor
  · rintro ⟨i, j, h⟩
    rcases h.of_append_symbol hne hsym with hj | hi
    · rw [List.append_assoc, BlankBetween.append_left hj] at h
      exact .inl ⟨i, j, h⟩
    · obtain ⟨i, rfl⟩ := Nat.exists_eq_add_of_le hi
      obtain ⟨k, rfl⟩ := Nat.exists_eq_add_of_le (hi.trans h.lt.le)
      obtain ⟨j, rfl⟩ := Nat.exists_eq_add_of_le (hi.trans (h.lt.trans h.gt).le)
      exact .inr ⟨k, ⟨i, j, BlankBetween.append_right.1 h⟩, rfl⟩
  · rintro (⟨i, j, h⟩ | ⟨k, ⟨i, j, h⟩, rfl⟩)
    · rw [List.append_assoc]
      exact ⟨i, j, (BlankBetween.append_left h.right.lt).2 h⟩
    · exact ⟨_, _, BlankBetween.append_right.2 h⟩

theorem lt_length {xs : List Char} {k : Nat} (h : Separates xs k) : k < xs.length := by
  obtain ⟨i, j, h⟩ := h
  exact h.blank.lt

end Separates

/-! ## Runs -/

/-- A text is blank, or there is a first character in it that is not. -/
theorem forall_isBlank_or_exists (cs : List Char) :
    (∀ c ∈ cs, isBlank c = true) ∨
      ∃ bs d ys, cs = bs ++ d :: ys ∧ (∀ c ∈ bs, isBlank c = true) ∧ isBlank d = false := by
  induction cs with
  | nil => exact .inl (by simp)
  | cons c cs ih =>
    cases hc : isBlank c with
    | false => exact .inr ⟨[], c, cs, rfl, by simp, hc⟩
    | true =>
      rcases ih with hcs | ⟨bs, d, ys, rfl, hbs, hd⟩
      · exact .inl (List.forall_mem_cons.2 ⟨hc, hcs⟩)
      · exact .inr ⟨c :: bs, d, ys, rfl, List.forall_mem_cons.2 ⟨hc, hbs⟩, hd⟩

namespace Piece.Unbroken

variable {collected xs ys rest : List Char} {b c : Char}

/-- The sign of an exponent has a digit behind it, and no blank. -/
theorem not_isSymbolChar_of_next (h : Unbroken collected (xs ++ c :: b :: ys) rest)
    (hb : isBlank b = true) : isSymbolChar c = false := by
  refine Bool.eq_false_iff.2 fun hc => ?_
  obtain ⟨-, ⟨d, hd, hdigit⟩, -⟩ := isExponentSign_iff.1 ((unbroken_append.1 h).2.1 hc)
  cases hd
  rw [isBlank_of_isDigit hdigit] at hb
  cases hb

/-- The sign of an exponent has no blank anywhere before it in its run. -/
theorem not_isSymbolChar_of_mem (h : Unbroken collected (xs ++ c :: ys) rest) (hmem : b ∈ xs)
    (hb : isBlank b = true) : isSymbolChar c = false := by
  refine Bool.eq_false_iff.2 fun hc => ?_
  obtain ⟨-, -, hawait⟩ := isExponentSign_iff.1 ((unbroken_append.1 h).2.1 hc)
  rw [isBlank_of_awaitsExponent hawait b (by simp [hmem])] at hb
  cases hb

end Piece.Unbroken

namespace Run

namespace Cut

variable {run before word after : List Char} (h : Cut run before word after)

include h

/-- No blank stands between the first operand of a run and what follows the word. -/
theorem le_of_hasAt {i k : Nat} (hik : i < k) (hi : HasAt isOperandChar run i)
    (hk : HasAt isBlank run k) : before.length + word.length ≤ k := by
  rw [h.text] at hi hk
  have first : before.length ≤ i := by
    refine Nat.le_of_not_lt fun hlt => ?_
    exact ((HasAt.append_left hlt).1 hi).not_isBlank (.of_forall h.isBlank_before hlt)
  obtain ⟨k, rfl⟩ := Nat.exists_eq_add_of_le (first.trans hik.le)
  rw [HasAt.append_right] at hk
  refine Nat.add_le_add_left (Nat.le_of_not_lt fun hlt => ?_) _
  obtain ⟨c, hc, hblank⟩ := (HasAt.append_left hlt).1 hk
  rw [h.isBlank_word c (List.mem_of_getElem? hc)] at hblank
  cases hblank

theorem not_separates (hafter : ∀ c ∈ after, isBlank c = true) (k : Nat) : ¬Separates run k := by
  rintro ⟨i, j, hik, hkj, hi, hk, hj, -⟩
  obtain ⟨j, rfl⟩ := Nat.exists_eq_add_of_le ((h.le_of_hasAt hik hi hk).trans hkj.le)
  rw [h.text, Nat.add_assoc, HasAt.append_right, HasAt.append_right] at hj
  exact hj.not_isBlank (.of_forall hafter hj.lt)

/-- The blank behind the word separates it from the next one.  Neither the end of the word nor the
beginning of the next one is the sign of an exponent. -/
theorem separates {rest : List Char} (hrun : Piece.Unbroken [] run rest)
    (hafter : ¬∀ c ∈ after, isBlank c = true) :
    Separates run (before.length + word.length) := by
  obtain ⟨bs, d, ys, rfl, hbs, hd⟩ := (forall_isBlank_or_exists after).resolve_left hafter
  obtain ⟨b, bs, rfl⟩ : ∃ b bs', bs = b :: bs' := by
    refine List.exists_cons_of_ne_nil ?_
    rintro rfl
    rw [h.isBlank_head d rfl] at hd
    cases hd
  have hne : word ≠ [] := fun hnil => List.cons_ne_nil b _ (h.eq_nil hnil)
  obtain ⟨w, c, rfl⟩ := (List.eq_nil_or_concat word).resolve_left hne
  have hb : isBlank b = true := hbs b List.mem_cons_self
  have hc : isBlank c = false := h.isBlank_word c (by simp)
  have left : run = (before ++ w) ++ c :: (b :: bs ++ d :: ys) := by simp [h.text]
  have right : run = ((before ++ w) ++ c :: b :: bs) ++ d :: ys := by simp [h.text]
  have hc' := Piece.Unbroken.not_isSymbolChar_of_next (left ▸ hrun) hb
  have hd' := Piece.Unbroken.not_isSymbolChar_of_mem (b := b) (right ▸ hrun) (by simp) hb
  have := @Separates.of_append (before ++ w) _ ys _ _ (isOperandChar_iff.2 ⟨hc, hc'⟩)
    (isOperandChar_iff.2 ⟨hd, hd'⟩) (List.cons_ne_nil b bs) hbs
  rw [← left] at this
  simpa [Nat.add_assoc] using this

end Cut

/-- The gap of a run is the first blank in it that separates two operands. -/
theorem isFirst_gap? {run rest : List Char} (h : Piece.Unbroken [] run rest) :
    IsFirst {k | Separates run k} (gap? run) := by
  have parts := cut run
  rw [gap?]
  split
  · next hall =>
    exact Set.eq_empty_iff_forall_notMem.2 (parts.not_separates (List.all_eq_true.1 hall))
  · next hall =>
    refine ⟨parts.separates h fun hblank => hall (List.all_eq_true.2 hblank), fun k hk => ?_⟩
    obtain ⟨i, j, hbetween⟩ := hk
    exact parts.le_of_hasAt hbetween.lt hbetween.left hbetween.blank

end Run

/-! ## Pieces -/

namespace Piece

/-- The first gap of pieces, the first of which begins at `i`. -/
def firstGap? (i : Nat) (ps : List Piece) : Option Nat :=
  (locate i ps).findSome? fun (i, p) => p.gap? i

theorem firstGap?_cons (i : Nat) (p : Piece) (ps : List Piece) :
    firstGap? i (p :: ps) = (p.gap? i).or (firstGap? (i + p.text.length) ps) := by
  rw [firstGap?, locate, List.findSome?_cons]
  cases h : p.gap? i <;> simp [h, firstGap?]

theorem firstGap?_ofCollected (i : Nat) (collected : List Char) (ps : List Piece) :
    firstGap? i (ofCollected collected ++ ps) =
      ((Run.gap? collected.reverse).map (i + ·)).or (firstGap? (i + collected.length) ps) := by
  cases collected with
  | nil => rfl
  | cons c cs =>
    rw [ofCollected, List.singleton_append, firstGap?_cons, text_run, List.length_reverse, gap?]
    exact List.cons_ne_nil c cs

theorem isSymbolChar_of_mem_symbols {sym : List Char} (h : sym ∈ symbols) :
    ∀ c ∈ sym, isSymbolChar c = true := by
  have all : symbols.all (·.all isSymbolChar) = true := by rfl
  exact List.all_eq_true.1 (List.all_eq_true.1 all sym h)

/-- The blanks that separate operands before an operator, bracket or comma come first, then those
behind it. -/
theorem isFirst_firstGap?_symbol {collected sym cs : List Char} {ps : List Piece} (i : Nat)
    (hsym : sym ∈ symbols) (hrun : Unbroken [] collected.reverse (sym ++ cs))
    (hrest : ∀ i, IsFirst ((i + ·) '' {k | Separates cs k}) (firstGap? i ps)) :
    IsFirst ((i + ·) '' {k | Separates (collected.reverse ++ (sym ++ cs)) k})
      (firstGap? i (ofCollected collected ++ symbol sym :: ps)) := by
  rw [Separates.append_symbol (ne_nil_of_mem_symbols hsym) (isSymbolChar_of_mem_symbols hsym),
    Set.image_union, firstGap?_ofCollected, firstGap?_cons, text_symbol, gap?, Option.none_or]
  refine ((Run.isFirst_gap? hrun).image_add i).union ?_ ?_
  · have := hrest (i + collected.length + sym.length)
    rw [Set.image_image]
    simpa [Nat.add_assoc] using this
  · rintro _ ⟨j, hj, rfl⟩ _ ⟨_, ⟨k, -, rfl⟩, rfl⟩
    have := hj.lt_length
    dsimp only
    omega

theorem isFirst_firstGap?_split {collected cs : List Char} (i : Nat)
    (hrun : Unbroken [] collected.reverse cs) :
    IsFirst ((i + ·) '' {k | Separates (collected.reverse ++ cs) k})
      (firstGap? i (split collected cs)) := by
  -- the run is complete at the end of the text and at each symbol, and goes on everywhere else
  fun_induction split collected cs generalizing i with
  | case1 collected =>
    have := firstGap?_ofCollected i collected []
    rw [List.append_nil] at this ⊢
    rw [this]
    have none : firstGap? (i + collected.length) [] = none := rfl
    rw [none, Option.or_none]
    exact (Run.isFirst_gap? hrun).image_add i
  | case2 collected cs ih =>
    exact @isFirst_firstGap?_symbol _ ['*', '*'] cs _ i (by decide) hrun fun i => ih i trivial
  | case3 collected cs ih =>
    exact @isFirst_firstGap?_symbol _ ['/', '/'] cs _ i (by decide) hrun fun i => ih i trivial
  | case4 collected c cs _ _ hcut ih =>
    rw [Bool.and_eq_true, Bool.not_eq_true'] at hcut
    exact @isFirst_firstGap?_symbol _ [c] cs _ i (singleton_mem_symbols hcut.1) hrun
      fun i => ih i trivial
  | case5 collected c cs _ _ hcut ih =>
    simpa using ih i (hrun.snoc hcut)

/-- The first gap of a formula is the first blank that separates two operands. -/
theorem isFirst_firstGap?_ofFormula (formula : List Char) :
    IsFirst {k | Separates formula k} (firstGap? 0 (ofFormula formula)) := by
  have := @isFirst_firstGap?_split [] formula 0 trivial
  simpa [ofFormula] using this

theorem firstGap?_eq_none_iff (formula : List Char) :
    firstGap? 0 (ofFormula formula) = none ↔ .gap ∉ lexemesFrom [] formula :=
  findSome?_gap?_eq_none_iff 0 (ofFormula formula)

/-- The lexemes of a formula have no gap if no blank separates two operands. -/
theorem gap_not_mem_iff {formula : List Char} :
    .gap ∉ lexemesFrom [] formula ↔ ∀ k, ¬Separates formula k := by
  rw [← firstGap?_eq_none_iff, (isFirst_firstGap?_ofFormula formula).eq_none_iff]
  exact Set.eq_empty_iff_forall_notMem

end Piece

/-! ## Formulas -/

namespace Skeleton

/-- A text has no gap and an empty skeleton if and only if it is blank. -/
theorem cellsOf_eq_nil_iff {text : List Char} :
    .gap ∉ Piece.lexemesFrom [] text ∧ cellsOf (Piece.locate 0 (Piece.ofFormula text)) = [] ↔
      ∀ c ∈ text, isBlank c = true := by
  constructor
  · rintro ⟨hgap, hcells⟩ c hc
    have fills := Piece.fills_tracesOf 0 hgap
    rw [← Piece.ofFormula, Piece.flatMap_text_ofFormula] at fills
    rw [← Piece.map_cell_tracesOf, List.map_eq_nil_iff] at hcells
    rw [hcells] at fills
    obtain ⟨k, hk⟩ := List.getElem?_of_mem hc
    simpa using fills.covered hk
  · intro h
    have none : Piece.lexemesFrom [] (text ++ []) = [] := Piece.lexemesFrom_blanks h trivial
    rw [List.append_nil] at none
    have chars := Piece.map_char_cellsOf 0 (Piece.ofFormula text)
    rw [Piece.ofFormula, ← Piece.lexemesFrom, none, List.flatMap_nil, List.map_eq_nil_iff] at chars
    exact ⟨by simp [none], chars⟩

/-- What a formula is refused for, and where. -/
theorem ofFormula_eq_error_iff {formula : String} {err : Error} :
    ofFormula formula = .error err ↔
      (∃ i, formula.toList.findIdx? isPlaceholder = some i ∧
        err = .malformed i .reservedCharacter) ∨
      formula.toList.findIdx? isPlaceholder = none ∧
        ((∃ k, Piece.firstGap? 0 (Piece.ofFormula formula.toList) = some k ∧
          err = .malformed k .blankBetweenOperands) ∨
        Piece.firstGap? 0 (Piece.ofFormula formula.toList) = none ∧
          cellsOf (Piece.locate 0 (Piece.ofFormula formula.toList)) = [] ∧
            err = .malformed 0 .emptyFormula) := by
  rw [Piece.firstGap?]
  cases hplace : formula.toList.findIdx? isPlaceholder with
  | some i => simp [ofFormula, hplace, @eq_comm Error err]
  | none =>
    cases hgap : (Piece.locate 0 (Piece.ofFormula formula.toList)).findSome?
        fun (i, p) => p.gap? i with
    | some k => simp [ofFormula, hplace, hgap, @eq_comm Error err]
    | none =>
      cases hcells : cellsOf (Piece.locate 0 (Piece.ofFormula formula.toList)) with
      | nil => simp [ofFormula, hplace, hgap, hcells, @eq_comm Error err]
      | cons cell cells => simp [ofFormula, hplace, hgap, hcells]

/-- A formula is accepted if and only if it can be cut without a gap and is not blank. -/
theorem exists_ofFormula_eq_ok_iff {formula : String} :
    (∃ s tokens, ofFormula formula = .ok (s, tokens)) ↔
      (∀ c ∈ formula.toList, isPlaceholder c = false) ∧
        .gap ∉ Piece.lexemesFrom [] formula.toList ∧ ∃ c ∈ formula.toList, isBlank c = false := by
  have blank (h : .gap ∉ Piece.lexemesFrom [] formula.toList) :
      cellsOf (Piece.locate 0 (Piece.ofFormula formula.toList)) = [] ↔
        ∀ c ∈ formula.toList, isBlank c = true :=
    (and_iff_right h).symm.trans cellsOf_eq_nil_iff
  constructor
  · rintro ⟨s, tokens, h⟩
    obtain ⟨hplain, hgap, hne, hcells, -⟩ := ofFormula_eq_ok_iff.1 h
    refine ⟨hplain, hgap, ?_⟩
    by_contra hall
    exact hne (hcells.trans ((blank hgap).2 (by simpa using hall)))
  · rintro ⟨hplain, hgap, c, hc, hblank⟩
    refine ⟨⟨_, _⟩, _, ofFormula_eq_ok_iff.2 ⟨hplain, hgap, fun hnil => ?_, rfl, rfl, rfl⟩⟩
    rw [(blank hgap).1 hnil c hc] at hblank
    cases hblank

/-- A formula fails at its first placeholder, or else at the first blank that separates two
operands, or else at its beginning if there is nothing but blanks in it.  Every other formula is
accepted. -/
theorem ofFormula_outcome (formula : String) :
    (∀ err, ofFormula formula = .error err ↔
      (∃ i, IsLeast {i | HasAt isPlaceholder formula.toList i} i ∧
        err = .malformed i .reservedCharacter) ∨
      ((∀ c ∈ formula.toList, isPlaceholder c = false) ∧
        ∃ k, IsLeast {k | Separates formula.toList k} k ∧
          err = .malformed k .blankBetweenOperands) ∨
      (∀ c ∈ formula.toList, isBlank c = true) ∧ err = .malformed 0 .emptyFormula) ∧
    ((∃ s tokens, ofFormula formula = .ok (s, tokens)) ↔
      (∀ c ∈ formula.toList, isPlaceholder c = false) ∧
        (∀ k, ¬Separates formula.toList k) ∧ ∃ c ∈ formula.toList, isBlank c = false) := by
  have places := isFirst_findIdx? isPlaceholder formula.toList
  have gaps := Piece.isFirst_firstGap?_ofFormula formula.toList
  refine ⟨fun err => ?_, ?_⟩
  · have blank : ((∀ c ∈ formula.toList, isPlaceholder c = false) ∧
        Piece.firstGap? 0 (Piece.ofFormula formula.toList) = none ∧
          cellsOf (Piece.locate 0 (Piece.ofFormula formula.toList)) = []) ↔
        ∀ c ∈ formula.toList, isBlank c = true := by
      rw [Piece.firstGap?_eq_none_iff, cellsOf_eq_nil_iff]
      exact and_iff_right_of_imp fun h c hc => Piece.isPlaceholder_of_isBlank (h c hc)
    simp only [ofFormula_eq_error_iff, places.eq_some_iff, gaps.eq_some_iff,
      List.findIdx?_eq_none_iff, and_or_left, ← and_assoc] at blank ⊢
    rw [blank]
  · rw [exists_ofFormula_eq_ok_iff, Piece.gap_not_mem_iff]

/-- The sign of an exponent does not hide the blank behind its number. -/
example : ofFormula "2*1e-3 4" = .error (.malformed 6 .blankBetweenOperands) := by rfl

end Skeleton

end Formulary
