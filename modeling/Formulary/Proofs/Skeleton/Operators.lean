import Formulary.Expr.OfSkeleton
import Formulary.Proofs.Skeleton.Spell
import Formulary.Proofs.Span.Scan

/-! # The operators of a skeleton

A skeleton keeps characters only, so its operators are found by a second scan, without the blanks
that stood between them in the formula.  The scan finds the operators of the formula exactly if
their lexemes can be told apart without blanks.
-/

namespace Formulary

open Piece

namespace Lexeme

/-- The operators, brackets and commas among lexemes, where they stand in the skeleton, if the first
lexeme stands at `i`. -/
def operators : (i : Nat) → List Lexeme → List Span
  | _, [] => []
  | i, symbol text :: ls => ⟨i, text⟩ :: operators (i + text.length) ls
  | i, word text :: ls => operators (i + (word text).chars.length) ls
  | i, gap :: ls => operators i ls

end Lexeme

/-! ## What the scan finds -/

namespace Piece

theorem longest?_symbol {sym : List Char} (h : sym ∈ symbols) {rest : List Char}
    (hends : Ends sym rest) : Span.longest? symbols (sym ++ rest) = some sym := by
  have star : sym = ['*'] → ¬['*'] <+: rest := by
    rintro rfl
    exact hends (.inl rfl)
  have slash : sym = ['/'] → ¬['/'] <+: rest := by
    rintro rfl
    exact hends (.inr rfl)
  simp only [symbols, List.mem_cons, List.not_mem_nil, or_false] at h
  rcases h with rfl | rfl | rfl | rfl | rfl | rfl | rfl | rfl | rfl | rfl <;>
    simp_all [Span.longest?, symbols]

/-- A star or a slash that is doubled is taken for the double operator. -/
theorem longest?_doubled {sym rest : List Char} (h : ¬Ends sym rest) :
    ∃ op, op ≠ sym ∧ op ≠ [] ∧ Span.longest? symbols (sym ++ rest) = some op := by
  obtain ⟨hsym, hdouble⟩ := Classical.not_imp.1 h
  obtain ⟨tail, rfl⟩ := Classical.not_not.1 hdouble
  refine ⟨sym ++ sym, ?_, ?_, ?_⟩
  · rcases hsym with rfl | rfl <;> decide
  · rcases hsym with rfl | rfl <;> decide
  · rw [← List.append_assoc]
    refine longest?_symbol ?_ ?_ <;> rcases hsym with rfl | rfl
    · decide
    · decide
    · simp [Ends]
    · simp [Ends]

theorem longest?_placeholder {c : Char} (h : isPlaceholder c = true) (rest : List Char) :
    Span.longest? symbols (c :: rest) = none := by
  rcases isPlaceholder_iff.1 h with rfl | rfl <;> simp [Span.longest?, symbols]

theorem scan_placeholder {c : Char} (h : isPlaceholder c = true) (i : Nat) (rest : List Char) :
    Span.scan symbols 0 0 i (c :: rest) = Span.scan symbols 0 0 (i + 1) rest := by
  rw [Span.scan_of_longest?_eq_none (longest?_placeholder h rest)]
  rcases isPlaceholder_iff.1 h with rfl | rfl <;> rfl

end Piece

namespace Spacing

theorem ends_chars_iff {sp : Spacing} (h : sp.Reads) (sym : List Char) :
    Ends sym (sp.lexemes.flatMap Lexeme.chars) ↔
      ∀ l ∈ sp.lexemes.head?, (Lexeme.symbol sym).Apart l := by
  cases sp with
  | done blanks => simp [lexemes, ends_nil]
  | next blanks lexeme rest =>
    simp only [lexemes, List.flatMap_cons, List.head?_cons, Option.mem_some_iff, forall_eq']
    cases lexeme with
    | symbol next => exact ends_append (ne_nil_of_mem_symbols h.1.1) _
    | gap => exact h.1.elim
    | word w =>
      refine iff_of_true (ends_cons ?_ _) trivial
      cases TokenKind.ofName (String.ofList w) <;> simp [TokenKind.placeholder]

/-- What comes after a word that is complete is no word. -/
theorem Closes.apart {collected w : List Char} {sp : Spacing} (h : sp.Closes collected) :
    ∀ l ∈ sp.lexemes.head?, (Lexeme.word w).Apart l := by
  cases sp with
  | done blanks => simp [lexemes]
  | next blanks lexeme rest =>
    cases lexeme with
    | symbol sym => simp [lexemes, Lexeme.Apart]
    | word _ => exact h.elim
    | gap => exact h.elim

/-- The scan of the characters finds the operators of the lexemes, if and only if they may stand
side by side. -/
theorem scan_chars_iff {sp : Spacing} (h : sp.Reads) (i : Nat) :
    Span.scan symbols 0 0 i (sp.lexemes.flatMap Lexeme.chars) = Lexeme.operators i sp.lexemes ↔
      sp.lexemes.IsChain Lexeme.Apart := by
  induction sp generalizing i with
  | done blanks => exact iff_of_true rfl .nil
  | next blanks lexeme rest ih =>
    rw [lexemes, List.flatMap_cons, List.isChain_cons]
    cases lexeme with
    | gap => exact h.1.elim
    | word w =>
      obtain ⟨-, -, -, hcloses⟩ := h.1
      have skip := scan_placeholder (TokenKind.ofName (String.ofList w)).isPlaceholder_placeholder i
        (rest.lexemes.flatMap Lexeme.chars)
      rw [and_iff_right hcloses.apart, ← ih h.2 (i + 1)]
      exact Eq.congr_left skip
    | symbol sym =>
      rw [← ends_chars_iff h.2]
      have hsym := h.1.1
      -- an operator that is doubled is found here in place of the lexeme, so the two lists differ
      -- already in their first span
      by_cases hends : Ends sym (rest.lexemes.flatMap Lexeme.chars)
      · have found := longest?_symbol hsym hends
        rw [and_iff_right hends, ← ih h.2 (i + sym.length), Lexeme.chars,
          Span.scan_of_longest?_eq_some found (ne_nil_of_mem_symbols hsym), List.drop_left,
          Lexeme.operators, List.cons.injEq, and_iff_right rfl]
      · obtain ⟨op, hop, hne, found⟩ := longest?_doubled hends
        refine iff_of_false ?_ fun h => hends h.1
        rw [Lexeme.chars, Span.scan_of_longest?_eq_some found hne, Lexeme.operators]
        intro heq
        exact hop (congrArg Span.op (List.cons.inj heq).1)

end Spacing

/-! ## Formulas -/

namespace Skeleton

/-- The skeleton of a formula is made of its lexemes.  It is scanned into the operators, brackets
and commas among them if and only if no star or slash of the formula comes, blanks aside, before an
operator that begins with the same character. -/
theorem findAll_symbols_iff {formula : String} {s : Skeleton} {tokens : List Token}
    (h : ofFormula formula = .ok (s, tokens)) :
    let lexemes := (Piece.ofFormula formula.toList).flatMap Piece.lexemes
    s.chars = lexemes.flatMap Lexeme.chars ∧
      (Span.findAll symbols s.chars 0 s.chars.length = Lexeme.operators 0 lexemes ↔
        lexemes.IsChain Lexeme.Apart) := by
  intro lexemes
  obtain ⟨-, hgap, -⟩ := ofFormula_eq_ok_iff.1 h
  obtain ⟨sp, hb, htext, hreads⟩ := Spacing.exists_spacing hgap
  have found : lexemes = sp.lexemes := by
    rw [← Spacing.lexemesFrom_text hb hreads, htext]
    rfl
  have chars : s.chars = lexemes.flatMap Lexeme.chars := (lexemes_of_ofFormula h).1
  have whole : Span.findAll symbols s.chars 0 s.chars.length = Span.scan symbols 0 0 0 s.chars := by
    simp [Span.findAll]
  refine ⟨chars, ?_⟩
  rw [whole, chars, found]
  exact Spacing.scan_chars_iff hreads 0

/-- Both sides hold for a product with a sign. -/
theorem findAll_symbols_iff_signed :
    ['□', '*', '-', '□'] =
        [Lexeme.word ['2'], .symbol ['*'], .symbol ['-'], .word ['x']].flatMap Lexeme.chars ∧
      (Span.findAll symbols ['□', '*', '-', '□'] 0 4 = [⟨1, ['*']⟩, ⟨2, ['-']⟩] ↔
        List.IsChain Lexeme.Apart [.word ['2'], .symbol ['*'], .symbol ['-'], .word ['x']]) :=
  findAll_symbols_iff (by rfl : ofFormula "2*-x" = .ok
    (⟨[⟨'□', 0⟩, ⟨'*', 1⟩, ⟨'-', 2⟩, ⟨'□', 3⟩], 4⟩,
      [⟨"2", 0, 0, .ordinary⟩, ⟨"x", 1, 3, .ordinary⟩]))

/-- Two stars with a blank between them are read as one operator. -/
theorem findAll_symbols_blank_between_stars :
    let lexemes := (Piece.ofFormula "2* *3".toList).flatMap Piece.lexemes
    ∃ s tokens, ofFormula "2* *3" = .ok (s, tokens) ∧
      Lexeme.operators 0 lexemes = [⟨1, ['*']⟩, ⟨2, ['*']⟩] ∧
      Span.findAll symbols s.chars 0 s.chars.length = [⟨1, ['*', '*']⟩] ∧
      Expr.ofSkeleton s tokens = .ok (.binary .pow (.operand 0) (.operand 1)) :=
  ⟨_, _, rfl, rfl, rfl, rfl⟩

end Skeleton

end Formulary
