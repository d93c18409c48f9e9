import Formulary.Proofs.Expr.Spelling
import Formulary.Skeleton.OfFormula

/-! # Lexemes

What a formula is made of, white space aside: words, and the operators, brackets and commas between
them.  Its skeleton and its tokens are those of its lexemes.
-/

namespace Formulary

inductive Lexeme where
  /-- An operator, a bracket or a comma. -/
  | symbol (text : List Char)
  /-- An operand or the name of a function. -/
  | word (text : List Char)
  /-- A missing operator between two words. -/
  | gap
deriving DecidableEq, Repr

namespace Lexeme

/-- What stands in the skeleton for a lexeme. -/
def chars : Lexeme → List Char
  | symbol text => text
  | word text => [(TokenKind.ofName (String.ofList text)).placeholder]
  | gap => []

def word? : Lexeme → Option (List Char)
  | word text => some text
  | symbol _ | gap => none

/-- How a lexeme is written. -/
def text : Lexeme → List Char
  | symbol text | word text => text
  | gap => []

end Lexeme

/-- What does not depend on the ranks of the tokens of words is got from the words. -/
theorem Word.map_tokens {α : Type} {f : Token → α} {g : Word → α} (h : ∀ w k, f (w.token k) = g w)
    (ws : List Word) : (ws.zipIdx.map fun (w, k) => w.token k).map f = ws.map g := by
  have : (f ∘ fun (w, k) => w.token k) = g ∘ Prod.fst := funext fun (w, k) => h w k
  rw [List.map_map, this, ← List.map_map, List.zipIdx_map_fst]

namespace Run

/-- A run is a word with blanks in front and, behind it, nothing or a blank and then anything. -/
structure Cut (run before word after : List Char) : Prop where
  text : run = before ++ (word ++ after)
  isBlank_before : ∀ c ∈ before, isBlank c = true
  isBlank_word : ∀ c ∈ word, isBlank c = false
  isBlank_head : ∀ c ∈ after.head?, isBlank c = true
  /-- Blanks that go on are all in front. -/
  eq_nil : word = [] → after = []

theorem cut (run : List Char) : Cut run (run.takeWhile isBlank) (word run) (afterWord run) where
  text := by
    rw [word, afterWord, List.takeWhile_append_dropWhile, List.takeWhile_append_dropWhile]
  isBlank_before := List.all_eq_true.1 List.all_takeWhile
  isBlank_word c hc := by
    have := List.all_eq_true.1 (List.all_takeWhile (p := (!isBlank ·))) c hc
    simpa using this
  isBlank_head c hc := by
    have := List.head?_dropWhile_not (!isBlank ·) (run.dropWhile isBlank)
    rw [← afterWord, hc] at this
    simpa using this
  eq_nil h := by
    cases hrest : run.dropWhile isBlank with
    | nil => rw [afterWord, hrest, List.dropWhile_nil]
    | cons c cs =>
      have hc : isBlank c = false := by simpa [hrest] using List.head?_dropWhile_not isBlank run
      rw [word, hrest, List.takeWhile_cons, hc] at h
      cases h

end Run

namespace Piece

def lexemes : Piece → List Lexeme
  | symbol text => [.symbol text]
  | run text =>
    (if (Run.word text).isEmpty then [] else [.word (Run.word text)]) ++
      if (Run.gap? text).isSome then [.gap] else []

/-- The lexemes of a text, after the characters collected so far, the last one first. -/
def lexemesFrom (collected cs : List Char) : List Lexeme :=
  (split collected cs).flatMap lexemes

theorem lexemesFrom_nil (collected : List Char) :
    lexemesFrom collected [] = (ofCollected collected).flatMap lexemes := rfl

/-! ## Skeleton and tokens -/

theorem map_char_cells (i : Nat) (p : Piece) :
    (p.cells i).map (·.char) = p.lexemes.flatMap Lexeme.chars := by
  cases p with
  | symbol text =>
    have chars : [Lexeme.symbol text].flatMap Lexeme.chars = text := List.append_nil text
    rw [cells, List.map_map, lexemes, chars]
    exact List.zipIdx_map_fst i text
  | run text =>
    cases hw : (Run.word text).isEmpty <;> cases hg : Run.gap? text <;>
      simp [cells, word?, lexemes, Lexeme.chars, Word.kind, Word.name, hw, hg]

theorem text_word? (i : Nat) (p : Piece) :
    (p.word? i).toList.map (·.text) = p.lexemes.filterMap Lexeme.word? := by
  cases p with
  | symbol text => rfl
  | run text =>
    cases hw : (Run.word text).isEmpty <;> cases hg : Run.gap? text <;>
      simp [word?, lexemes, Lexeme.word?, hw, hg]

theorem gap?_eq_none_iff (i : Nat) (p : Piece) : p.gap? i = none ↔ .gap ∉ p.lexemes := by
  cases p with
  | symbol text => simp [gap?, lexemes]
  | run text =>
    cases hw : (Run.word text).isEmpty <;> cases hg : Run.gap? text <;>
      simp [gap?, lexemes, hw, hg]

theorem map_char_cellsOf (i : Nat) (ps : List Piece) :
    (Skeleton.cellsOf (locate i ps)).map (·.char) = (ps.flatMap lexemes).flatMap Lexeme.chars := by
  induction ps generalizing i with
  | nil => rfl
  | cons p ps ih =>
    have rest := ih (i + p.text.length)
    simp only [Skeleton.cellsOf] at rest
    simp only [Skeleton.cellsOf, locate, List.flatMap_cons, List.map_append, List.flatMap_append,
      map_char_cells, rest]

theorem map_text_tokensOf (i : Nat) (ps : List Piece) :
    (Skeleton.tokensOf (locate i ps)).map (·.text) =
      ((ps.flatMap lexemes).filterMap Lexeme.word?).map String.ofList := by
  have words : ((locate i ps).filterMap fun q => q.2.word? q.1).map (·.text) =
      (ps.flatMap lexemes).filterMap Lexeme.word? := by
    induction ps generalizing i with
    | nil => rfl
    | cons p ps ih =>
      rw [locate, List.flatMap_cons, List.filterMap_append, ← text_word? i p,
        ← ih (i + p.text.length)]
      cases h : p.word? i <;> simp [h]
  rw [← words, Skeleton.tokensOf, Word.map_tokens fun _ _ => rfl, List.map_map]
  rfl

theorem findSome?_gap?_eq_none_iff (i : Nat) (ps : List Piece) :
    ((locate i ps).findSome? fun (i, p) => p.gap? i) = none ↔ .gap ∉ ps.flatMap lexemes := by
  induction ps generalizing i with
  | nil => simp [locate]
  | cons p ps ih =>
    rw [locate, List.flatMap_cons, List.mem_append, not_or, ← gap?_eq_none_iff i p,
      ← ih (i + p.text.length)]
    cases h : p.gap? i <;> simp [h]

end Piece

/-! ## Lexing

A text is cut from left to right.  What has been collected of a run does not matter to what comes
after the next operator.
-/

namespace Piece

/-- The operators, brackets and the comma. -/
def symbols : List (List Char) :=
  [['*', '*'], ['/', '/'], ['+'], ['-'], ['*'], ['/'], ['%'], ['('], [')'], [',']]

/-- What becomes of a character that does not begin a double operator. -/
theorem split_cons {c : Char} {cs : List Char} (star : c = '*' → ∀ ds, cs ≠ '*' :: ds)
    (slash : c = '/' → ∀ ds, cs ≠ '/' :: ds) (collected : List Char) :
    split collected (c :: cs) =
      if isSymbolChar c && !isExponentSign collected c cs then
        ofCollected collected ++ symbol [c] :: split [] cs
      else split (c :: collected) cs := by
  conv =>
    lhs
    unfold split
  split
  · cases ‹c :: cs = []›
  · cases ‹c :: cs = _›
    exact absurd rfl (star rfl _)
  · cases ‹c :: cs = _›
    exact absurd rfl (slash rfl _)
  · cases ‹c :: cs = _›
    rfl

theorem isExponentSign_iff {collected cs : List Char} {c : Char} :
    isExponentSign collected c cs = true ↔
      (c = '+' ∨ c = '-') ∧ (∃ d, cs.head? = some d ∧ d.isDigit = true) ∧
        awaitsExponent collected = true := by
  simp [isExponentSign, Option.any_eq_true, and_assoc]

/-- Does no character of the run cut, after what has been collected and with the rest behind it? -/
def Unbroken : (collected run rest : List Char) → Prop
  | _, [], _ => True
  | collected, c :: cs, rest =>
    (isSymbolChar c = true → isExponentSign collected c (cs ++ rest) = true) ∧
      Unbroken (c :: collected) cs rest

theorem unbroken_append {collected xs ys rest : List Char} :
    Unbroken collected (xs ++ ys) rest ↔
      Unbroken collected xs (ys ++ rest) ∧ Unbroken (xs.reverse ++ collected) ys rest := by
  induction xs generalizing collected with
  | nil => simp [Unbroken]
  | cons c xs ih => simp [Unbroken, ih, and_assoc]

/-- A run goes on with a character that does not cut. -/
theorem Unbroken.snoc {collected rest : List Char} {c : Char}
    (h : Unbroken [] collected.reverse (c :: rest))
    (hc : ¬(isSymbolChar c && !isExponentSign collected c rest) = true) :
    Unbroken [] (c :: collected).reverse rest := by
  rw [List.reverse_cons, unbroken_append, List.reverse_reverse, List.append_nil]
  refine ⟨h, fun hsym => ?_, trivial⟩
  simpa [hsym] using hc

/-- Characters that operators are not made of do not cut. -/
theorem unbroken_of_plain {run : List Char} (h : ∀ c ∈ run, isSymbolChar c = false)
    (collected rest : List Char) : Unbroken collected run rest := by
  induction run generalizing collected with
  | nil => trivial
  | cons c run ih =>
    obtain ⟨hc, hrun⟩ := List.forall_mem_cons.1 h
    exact ⟨fun hcut => by simp [hc] at hcut, ih hrun (c :: collected)⟩

theorem isExponentSign_append {collected cs : List Char} {c : Char}
    (h : isExponentSign collected c cs = true) (rest : List Char) :
    isExponentSign collected c (cs ++ rest) = true := by
  cases cs with
  | nil => simp [isExponentSign] at h
  | cons d ds => exact h

/-- The digit behind the sign of an exponent belongs to the run, so what follows does not matter. -/
theorem Unbroken.weaken {collected run : List Char} (h : Unbroken collected run [])
    (rest : List Char) : Unbroken collected run rest := by
  induction run generalizing collected with
  | nil => trivial
  | cons c run ih =>
    refine ⟨fun hc => ?_, ih h.2⟩
    have := isExponentSign_append (h.1 hc) rest
    rwa [List.append_nil] at this

/-- Only the signs of exponents do not cut. -/
theorem Unbroken.sign_of_mem {collected run rest : List Char} (h : Unbroken collected run rest)
    {c : Char} (hc : c ∈ run) (hsym : isSymbolChar c = true) : c = '+' ∨ c = '-' := by
  induction run generalizing collected with
  | nil => cases hc
  | cons d run ih =>
    rcases List.mem_cons.1 hc with rfl | hc
    · exact (isExponentSign_iff.1 (h.1 hsym)).1
    · exact ih h.2 hc

theorem split_run {collected run rest : List Char} (h : Unbroken collected run rest) :
    split collected (run ++ rest) = split (run.reverse ++ collected) rest := by
  induction run generalizing collected with
  | nil => rfl
  | cons c run ih =>
    obtain ⟨hc, hrun⟩ := h
    have kept : (isSymbolChar c && !isExponentSign collected c (run ++ rest)) = false := by
      cases hsym : isSymbolChar c with
      | false => rfl
      | true => rw [hc hsym]; rfl
    have single : isSymbolChar c = true → c ≠ '*' ∧ c ≠ '/' := by
      intro hsym
      rcases (isExponentSign_iff.1 (hc hsym)).1 with rfl | rfl <;> decide
    rw [List.cons_append, split_cons, kept, if_neg Bool.false_ne_true, ih hrun,
      List.reverse_cons, List.append_assoc]
    · rfl
    · rintro rfl
      exact absurd rfl (single rfl).1
    · rintro rfl
      exact absurd rfl (single rfl).2

/-- Is the run that has been collected complete where the rest begins? -/
def Closes (collected : List Char) : List Char → Prop
  | [] => True
  | c :: cs => isSymbolChar c = true ∧ isExponentSign collected c cs = false

theorem isExponentSign_nil (c : Char) (cs : List Char) : isExponentSign [] c cs = false :=
  Bool.and_false _

theorem Closes.of_awaitsExponent {collected rest : List Char} (h : Closes [] rest)
    (hcollected : awaitsExponent collected = false) : Closes collected rest := by
  cases rest with
  | nil => trivial
  | cons c cs => exact ⟨h.1, by rw [isExponentSign, hcollected, Bool.and_false]⟩

/-- What comes next does not depend on a run that is complete. -/
theorem split_of_closes {collected rest : List Char} (h : Closes collected rest) :
    split collected rest = ofCollected collected ++ split [] rest := by
  cases rest with
  | nil => exact (List.append_nil _).symm
  | cons c cs =>
    obtain ⟨hsym, hsign⟩ := h
    by_cases star : c = '*' ∧ ∃ ds, cs = '*' :: ds
    · obtain ⟨rfl, ds, rfl⟩ := star
      rfl
    by_cases slash : c = '/' ∧ ∃ ds, cs = '/' :: ds
    · obtain ⟨rfl, ds, rfl⟩ := slash
      rfl
    have single (collected : List Char) := @split_cons c cs
      (fun hc ds hds => star ⟨hc, ds, hds⟩) (fun hc ds hds => slash ⟨hc, ds, hds⟩) collected
    rw [single, single, hsym, hsign, isExponentSign_nil]
    rfl

/-- Is a star or a slash not doubled by what follows it? -/
def Ends (sym rest : List Char) : Prop :=
  sym = ['*'] ∨ sym = ['/'] → ¬sym <+: rest

theorem ends_nil (sym : List Char) : Ends sym [] := by
  rintro (rfl | rfl) hstart <;> cases List.prefix_nil.1 hstart

theorem ends_cons {c : Char} (h : c ≠ '*' ∧ c ≠ '/') {sym : List Char} (rest : List Char) :
    Ends sym (c :: rest) := by
  rintro (rfl | rfl) hstart
  · exact h.1 (List.cons_prefix_cons.1 hstart).1.symm
  · exact h.2 (List.cons_prefix_cons.1 hstart).1.symm

theorem ends_append {sym cs : List Char} (hne : cs ≠ []) (rest : List Char) :
    Ends sym (cs ++ rest) ↔ Ends sym cs := by
  obtain ⟨c, cs, rfl⟩ := List.exists_cons_of_ne_nil hne
  have head : ∀ d : Char, [d] <+: c :: cs ++ rest ↔ [d] <+: c :: cs := by simp
  constructor
  · rintro h (rfl | rfl)
    · rw [← head]
      exact h (.inl rfl)
    · rw [← head]
      exact h (.inr rfl)
  · rintro h (rfl | rfl)
    · rw [head]
      exact h (.inl rfl)
    · rw [head]
      exact h (.inr rfl)

theorem Unbroken.ends {collected run rest : List Char} (h : Unbroken collected run rest)
    (sym : List Char) : Ends sym run := by
  rintro (rfl | rfl) hstart
  · rcases h.sign_of_mem (hstart.subset List.mem_cons_self) rfl with hc | hc <;> cases hc
  · rcases h.sign_of_mem (hstart.subset List.mem_cons_self) rfl with hc | hc <;> cases hc

theorem split_symbolChar {c : Char} {rest : List Char} (hc : isSymbolChar c = true)
    (hrest : Ends [c] rest) : split [] (c :: rest) = symbol [c] :: split [] rest := by
  rw [split_cons, hc, isExponentSign_nil]
  · rfl
  · rintro rfl ds rfl
    exact hrest (.inl rfl) ⟨ds, rfl⟩
  · rintro rfl ds rfl
    exact hrest (.inr rfl) ⟨ds, rfl⟩

theorem split_symbol {sym : List Char} (h : sym ∈ symbols) {rest : List Char}
    (hrest : Ends sym rest) : split [] (sym ++ rest) = symbol sym :: split [] rest := by
  simp only [symbols, List.mem_cons, List.not_mem_nil, or_false] at h
  rcases h with rfl | rfl | rfl | rfl | rfl | rfl | rfl | rfl | rfl | rfl
  · rfl
  · rfl
  all_goals exact split_symbolChar rfl hrest

theorem ne_nil_of_mem_symbols {sym : List Char} (h : sym ∈ symbols) : sym ≠ [] := by
  rintro rfl
  exact absurd h (by decide)

theorem isPlaceholder_of_mem_symbols {sym : List Char} (h : sym ∈ symbols) :
    ∀ c ∈ sym, isPlaceholder c = false :=
  forall_not_isPlaceholder_of_mem (by rfl) h

theorem singleton_mem_symbols {c : Char} (h : isSymbolChar c = true) : [c] ∈ symbols := by
  simp only [isSymbolChar, Bool.or_eq_true, beq_iff_eq] at h
  rcases h with ((((((rfl | rfl) | rfl) | rfl) | rfl) | rfl) | rfl) | rfl <;> decide

theorem lexemesFrom_symbol {sym : List Char} (h : sym ∈ symbols) {rest : List Char}
    (hrest : Ends sym rest) :
    lexemesFrom [] (sym ++ rest) = .symbol sym :: lexemesFrom [] rest := by
  rw [lexemesFrom, split_symbol h hrest]
  rfl

/-- An operator, a bracket or a comma closes a run that is no number that goes on. -/
theorem closes_symbol {sym : List Char} (h : sym ∈ symbols) (rest : List Char) :
    Closes [] (sym ++ rest) := by
  simp only [symbols, List.mem_cons, List.not_mem_nil, or_false] at h
  rcases h with rfl | rfl | rfl | rfl | rfl | rfl | rfl | rfl | rfl | rfl <;>
    exact ⟨rfl, isExponentSign_nil _ _⟩

/-! ## Blanks and words -/

theorem isBlank_of_isSymbolChar {c : Char} (h : isSymbolChar c = true) : isBlank c = false := by
  simp only [isSymbolChar, Bool.or_eq_true, beq_iff_eq] at h
  rcases h with ((((((rfl | rfl) | rfl) | rfl) | rfl) | rfl) | rfl) | rfl <;> rfl

theorem isSymbolChar_of_isBlank {c : Char} (h : isBlank c = true) : isSymbolChar c = false := by
  refine Bool.eq_false_iff.2 fun hc => ?_
  rw [isBlank_of_isSymbolChar hc] at h
  cases h

theorem isPlaceholder_of_isBlank {c : Char} (h : isBlank c = true) : isPlaceholder c = false := by
  refine Bool.eq_false_iff.2 fun hc => ?_
  rcases isPlaceholder_iff.1 hc with rfl | rfl <;> cases h

theorem isBlank_of_isDigit {c : Char} (h : c.isDigit = true) : isBlank c = false := by
  simp only [Char.isDigit, Bool.and_eq_true, decide_eq_true_eq, ge_iff_le,
    UInt32.le_iff_toNat_le] at h
  have digit : 48 ≤ c.toNat ∧ c.toNat ≤ 57 := h
  simp [isBlank, blankRanges]
  omega

theorem isSymbolChar_of_isDigit {c : Char} (h : c.isDigit = true) : isSymbolChar c = false := by
  refine Bool.eq_false_iff.2 fun hc => ?_
  simp only [isSymbolChar, Bool.or_eq_true, beq_iff_eq] at hc
  rcases hc with ((((((rfl | rfl) | rfl) | rfl) | rfl) | rfl) | rfl) | rfl <;> cases h

theorem awaitsExponent_cons_iff {mark : Char} {mantissa : List Char} :
    awaitsExponent (mark :: mantissa) = true ↔
      (mark = 'e' ∨ mark = 'E') ∧ (∀ c ∈ mantissa, c.isDigit = true ∨ c = '.') ∧
        (∃ c ∈ mantissa, c.isDigit = true) ∧ mantissa.count '.' ≤ 1 := by
  simp [awaitsExponent, and_assoc]

/-- A run that ends with digits does not wait for an exponent. -/
theorem awaitsExponent_reverse_append {ds : List Char} (hne : ds ≠ [])
    (h : ∀ c ∈ ds, c.isDigit = true ∨ c = '.') (cs : List Char) :
    awaitsExponent (ds.reverse ++ cs) = false := by
  refine Bool.eq_false_iff.2 fun hawait => ?_
  cases hrev : ds.reverse with
  | nil => exact hne (List.reverse_eq_nil_iff.1 hrev)
  | cons c rest =>
    rw [hrev, List.cons_append] at hawait
    have last := h c (List.mem_reverse.1 (hrev ▸ List.mem_cons_self))
    rcases (awaitsExponent_cons_iff.1 hawait).1 with rfl | rfl <;> simp at last

theorem awaitsExponent_blank {c : Char} (h : isBlank c = true) (cs : List Char) :
    awaitsExponent (c :: cs) = false := by
  refine Bool.eq_false_iff.2 fun hawait => ?_
  rcases (awaitsExponent_cons_iff.1 hawait).1 with rfl | rfl <;> cases h

/-- The beginning of a number has no blanks in it. -/
theorem isBlank_of_awaitsExponent {cs : List Char} (h : awaitsExponent cs = true) :
    ∀ c ∈ cs, isBlank c = false := by
  cases cs with
  | nil => simp
  | cons mark mantissa =>
    obtain ⟨hmark, hmantissa, -⟩ := awaitsExponent_cons_iff.1 h
    refine List.forall_mem_cons.2 ⟨?_, fun c hc => ?_⟩
    · rcases hmark with rfl | rfl <;> rfl
    · rcases hmantissa c hc with hdigit | rfl
      · exact isBlank_of_isDigit hdigit
      · rfl

theorem flatMap_lexemes_ofCollected (cs : List Char) :
    (ofCollected cs.reverse).flatMap lexemes = lexemes (run cs) := by
  cases hrev : cs.reverse with
  | nil =>
    rw [List.reverse_eq_nil_iff.1 hrev]
    rfl
  | cons c rest =>
    have back : (c :: rest).reverse = cs := by rw [← hrev, List.reverse_reverse]
    simp [ofCollected, ← back]

/-- Blanks are no lexeme. -/
theorem lexemes_blanks {b : List Char} (h : ∀ c ∈ b, isBlank c = true) : lexemes (run b) = [] := by
  have word : b.dropWhile isBlank = [] := by
    have := @List.dropWhile_append_of_pos _ isBlank b [] h
    rwa [List.append_nil] at this
  simp [lexemes, Run.word, Run.gap?, Run.afterWord, word]

/-- A word with blanks around it is one lexeme. -/
theorem lexemes_word {w b₁ b₂ : List Char} (hne : w ≠ []) (hw : ∀ c ∈ w, isBlank c = false)
    (hb₁ : ∀ c ∈ b₁, isBlank c = true) (hb₂ : ∀ c ∈ b₂, isBlank c = true) :
    lexemes (run (b₁ ++ (w ++ b₂))) = [.word w] := by
  obtain ⟨c, cs, rfl⟩ := List.exists_cons_of_ne_nil hne
  have first : isBlank c = false := hw c List.mem_cons_self
  have drop : (b₁ ++ (c :: cs ++ b₂)).dropWhile isBlank = c :: cs ++ b₂ := by
    rw [List.dropWhile_append_of_pos hb₁, List.cons_append, List.dropWhile_cons_of_neg]
    simp [first]
  have inWord : ∀ x ∈ c :: cs, (!isBlank x) = true := fun x hx => by rw [hw x hx]; rfl
  have stop : b₂.takeWhile (!isBlank ·) = [] ∧ b₂.dropWhile (!isBlank ·) = b₂ := by
    cases b₂ with
    | nil => exact ⟨rfl, rfl⟩
    | cons d ds => simp [hb₂ d List.mem_cons_self]
  have word : Run.word (b₁ ++ (c :: cs ++ b₂)) = c :: cs := by
    rw [Run.word, drop, List.takeWhile_append_of_pos inWord, stop.1, List.append_nil]
  have gap : Run.gap? (b₁ ++ (c :: cs ++ b₂)) = none := by
    rw [Run.gap?, Run.afterWord, drop, List.dropWhile_append_of_pos inWord, stop.2,
      if_pos (List.all_eq_true.2 hb₂)]
  rw [lexemes, word, gap]
  rfl

/-- A run without a gap is a word between blanks, or only blanks. -/
theorem exists_of_gap_not_mem {r : List Char} (h : .gap ∉ lexemes (run r)) :
    ∃ b b' : List Char, (∀ c ∈ b, isBlank c = true) ∧ (∀ c ∈ b', isBlank c = true) ∧
      (∀ c ∈ Run.word r, isBlank c = false) ∧ r = b ++ (Run.word r ++ b') ∧
        b.length = Run.indent r := by
  have last : ∀ c ∈ Run.afterWord r, isBlank c = true := by
    have hgap := (gap?_eq_none_iff 0 (run r)).2 h
    rw [gap?, Option.map_eq_none_iff, Run.gap?] at hgap
    split at hgap
    · next hall => exact List.all_eq_true.1 hall
    · cases hgap
  have parts := Run.cut r
  exact ⟨_, _, parts.isBlank_before, last, parts.isBlank_word, parts.text, rfl⟩

/-- At the end of a run, the lexemes collected in it are complete. -/
theorem lexemesFrom_of_closes {collected rest : List Char} (h : Closes collected rest) :
    lexemesFrom collected rest =
      (ofCollected collected).flatMap lexemes ++ lexemesFrom [] rest := by
  rw [lexemesFrom, split_of_closes h, List.flatMap_append]
  rfl

theorem awaitsExponent_blanks {b : List Char} (h : ∀ c ∈ b, isBlank c = true)
    {collected : List Char} (hcollected : awaitsExponent collected = false) :
    awaitsExponent (b.reverse ++ collected) = false := by
  cases hrev : b.reverse with
  | nil => exact hcollected
  | cons d ds =>
    exact awaitsExponent_blank (h d (List.mem_reverse.1 (hrev ▸ List.mem_cons_self))) _

theorem lexemesFrom_blanks {b rest : List Char} (hb : ∀ c ∈ b, isBlank c = true)
    (hrest : Closes [] rest) : lexemesFrom [] (b ++ rest) = lexemesFrom [] rest := by
  have closes : Closes (b.reverse ++ []) rest :=
    hrest.of_awaitsExponent (awaitsExponent_blanks hb rfl)
  have plain : ∀ c ∈ b, isSymbolChar c = false := fun c hc => isSymbolChar_of_isBlank (hb c hc)
  rw [lexemesFrom, split_run (unbroken_of_plain plain [] rest), ← lexemesFrom,
    lexemesFrom_of_closes closes, List.append_nil, flatMap_lexemes_ofCollected, lexemes_blanks hb,
    List.nil_append]

/-- Do only blanks come before the run that has been collected is complete? -/
def Stops (collected rest : List Char) : Prop :=
  ∃ b tail, (∀ c ∈ b, isBlank c = true) ∧ rest = b ++ tail ∧ Closes (b.reverse ++ collected) tail

theorem Closes.stops {collected rest : List Char} (h : Closes collected rest) :
    Stops collected rest :=
  ⟨[], rest, by simp, rfl, h⟩

theorem Stops.of_awaitsExponent {collected rest : List Char} (h : Stops [] rest)
    (hcollected : awaitsExponent collected = false) : Stops collected rest := by
  obtain ⟨b, tail, hb, rfl, htail⟩ := h
  refine ⟨b, tail, hb, rfl, ?_⟩
  cases tail with
  | nil => trivial
  | cons c cs =>
    exact ⟨htail.1, by rw [isExponentSign, awaitsExponent_blanks hb hcollected, Bool.and_false]⟩

/-- A run does not stop in front of a digit. -/
theorem Stops.isDigit_head? {collected rest : List Char} (h : Stops collected rest) {c : Char}
    (hc : rest.head? = some c) : c.isDigit = false := by
  obtain ⟨b, tail, hb, rfl, htail⟩ := h
  refine Bool.eq_false_iff.2 fun hdigit => ?_
  cases b with
  | cons d ds =>
    cases hc
    have := hb c List.mem_cons_self
    rw [isBlank_of_isDigit hdigit] at this
    cases this
  | nil =>
    cases tail with
    | nil => cases hc
    | cons d ds =>
      cases hc
      have := htail.1
      rw [isSymbolChar_of_isDigit hdigit] at this
      cases this

theorem Unbroken.of_stops {collected run rest other : List Char} (h : Unbroken collected run rest)
    (hrest : Stops other rest) : Unbroken collected run [] := by
  induction run generalizing collected with
  | nil => trivial
  | cons c run ih =>
    refine ⟨fun hc => ?_, ih h.2⟩
    have sign := h.1 hc
    cases run with
    | cons d ds => exact sign
    | nil =>
      -- the digit of the exponent would be the head of the rest
      obtain ⟨-, ⟨d, hd, hdigit⟩, -⟩ := isExponentSign_iff.1 sign
      rw [hrest.isDigit_head? hd] at hdigit
      cases hdigit

/-- A word is read as it is, with the blanks around it left out. -/
theorem lexemesFrom_word {b w rest : List Char} (hb : ∀ c ∈ b, isBlank c = true) (hne : w ≠ [])
    (hw : ∀ c ∈ w, isBlank c = false) (hrun : Unbroken b.reverse w rest)
    (hstop : Stops (w.reverse ++ b.reverse) rest) :
    lexemesFrom [] (b ++ (w ++ rest)) = .word w :: lexemesFrom [] rest := by
  obtain ⟨b₂, tail, hb₂, rfl, hclose⟩ := hstop
  have plain : ∀ {b : List Char}, (∀ c ∈ b, isBlank c = true) → ∀ c ∈ b, isSymbolChar c = false :=
    fun hb c hc => isSymbolChar_of_isBlank (hb c hc)
  have run : Unbroken [] (b ++ (w ++ b₂)) tail := by
    rw [unbroken_append, unbroken_append, List.append_nil]
    exact ⟨unbroken_of_plain (plain hb) _ _, hrun, unbroken_of_plain (plain hb₂) _ _⟩
  have collected : (b ++ (w ++ b₂)).reverse ++ [] = b₂.reverse ++ (w.reverse ++ b.reverse) := by
    simp
  have next : Closes [] tail := by
    cases tail with
    | nil => trivial
    | cons c cs => exact ⟨hclose.1, isExponentSign_nil c cs⟩
  have text : b ++ (w ++ (b₂ ++ tail)) = b ++ (w ++ b₂) ++ tail := by simp
  rw [text, lexemesFrom, split_run run, collected, ← lexemesFrom, lexemesFrom_of_closes hclose,
    ← collected, List.append_nil, flatMap_lexemes_ofCollected, lexemes_word hne hw hb hb₂,
    lexemesFrom_blanks hb₂ next, List.singleton_append]

end Piece

/-! ## Formulas that are accepted -/

namespace Skeleton

theorem ofFormula_eq_ok_iff {formula : String} {s : Skeleton} {tokens : List Token} :
    ofFormula formula = .ok (s, tokens) ↔
      (∀ c ∈ formula.toList, isPlaceholder c = false) ∧
        .gap ∉ Piece.lexemesFrom [] formula.toList ∧ s.cells ≠ [] ∧
        s.cells = cellsOf (Piece.locate 0 (Piece.ofFormula formula.toList)) ∧
        s.length = formula.toList.length ∧
        tokens = tokensOf (Piece.locate 0 (Piece.ofFormula formula.toList)) := by
  obtain ⟨cells, length⟩ := s
  have gaps := Piece.findSome?_gap?_eq_none_iff 0 (Piece.ofFormula formula.toList)
  rw [Piece.lexemesFrom, ← Piece.ofFormula, ← gaps, ← List.findIdx?_eq_none_iff]
  cases hplace : formula.toList.findIdx? isPlaceholder with
  | some i => simp [ofFormula, hplace]
  | none =>
    cases hgap : (Piece.locate 0 (Piece.ofFormula formula.toList)).findSome?
        fun (i, p) => p.gap? i with
    | some i => simp [ofFormula, hplace, hgap]
    | none =>
      simp only [ofFormula, hplace, hgap]
      cases hcells : cellsOf (Piece.locate 0 (Piece.ofFormula formula.toList)) with
      | nil =>
        refine iff_of_false (by simp) ?_
        rintro ⟨-, -, hne, hnil, -⟩
        exact hne hnil
      | cons cell rest =>
        simp only [List.isEmpty_cons, Bool.false_eq_true, if_false, Except.ok.injEq, Prod.mk.injEq,
          mk.injEq]
        constructor
        · rintro ⟨⟨rfl, rfl⟩, rfl⟩
          exact ⟨trivial, trivial, List.cons_ne_nil _ _, rfl, rfl, rfl⟩
        · rintro ⟨-, -, -, rfl, rfl, rfl⟩
          exact ⟨⟨rfl, rfl⟩, rfl⟩

/-- A formula without placeholders whose lexemes have no gap, and are not nothing, has the skeleton
and the tokens of its lexemes. -/
theorem ofFormula_of_lexemes {formula : List Char} {lexemes : List Lexeme}
    (hplain : ∀ c ∈ formula, isPlaceholder c = false)
    (hlexemes : Piece.lexemesFrom [] formula = lexemes) (hgap : .gap ∉ lexemes)
    (hne : lexemes.flatMap Lexeme.chars ≠ []) :
    ∃ s tokens, ofFormula (String.ofList formula) = .ok (s, tokens) ∧
      s.chars = lexemes.flatMap Lexeme.chars ∧
      tokens.map (·.text) = (lexemes.filterMap Lexeme.word?).map String.ofList := by
  subst hlexemes
  have chars := Piece.map_char_cellsOf 0 (Piece.ofFormula formula)
  refine ⟨⟨cellsOf (Piece.locate 0 (Piece.ofFormula formula)), formula.length⟩,
    tokensOf (Piece.locate 0 (Piece.ofFormula formula)), ?_, chars,
    Piece.map_text_tokensOf 0 (Piece.ofFormula formula)⟩
  rw [ofFormula_eq_ok_iff, String.toList_ofList]
  refine ⟨hplain, hgap, fun h => hne ?_, rfl, rfl, rfl⟩
  rw [Piece.lexemesFrom, ← Piece.ofFormula, ← chars]
  exact List.map_eq_nil_iff.2 h

/-- A formula that is accepted has the skeleton and the tokens of its lexemes. -/
theorem lexemes_of_ofFormula {formula : String} {s : Skeleton} {tokens : List Token}
    (h : ofFormula formula = .ok (s, tokens)) :
    s.chars = (Piece.lexemesFrom [] formula.toList).flatMap Lexeme.chars ∧
      tokens.map (·.text) =
        ((Piece.lexemesFrom [] formula.toList).filterMap Lexeme.word?).map String.ofList := by
  obtain ⟨-, -, -, hcells, -, rfl⟩ := ofFormula_eq_ok_iff.1 h
  exact ⟨by rw [chars, hcells]; exact Piece.map_char_cellsOf 0 _, Piece.map_text_tokensOf 0 _⟩

theorem kind_of_ofFormula {formula : String} {s : Skeleton} {tokens : List Token}
    (h : ofFormula formula = .ok (s, tokens)) {t : Token} (ht : t ∈ tokens) :
    t.kind = .ofName t.text := by
  obtain ⟨-, -, -, -, -, rfl⟩ := ofFormula_eq_ok_iff.1 h
  obtain ⟨⟨w, k⟩, -, rfl⟩ := List.mem_map.1 ht
  rfl

end Skeleton

end Formulary
