import Formulary.Proofs.Expr.Recovery
import Formulary.Proofs.Expr.OfSkeleton
import Formulary.Proofs.Skeleton.Splice
import Formulary.Proofs.Skeleton.Trace

/-! # Lexemes with their numbers

The glyphs of a skeleton are those of the lexemes of the formula, the words numbered from left to
right.  So everything about a formula that the reader of expressions sees follows from its lexemes.
-/

namespace Formulary

open Glyph (plain)

/-- The placeholders of tokens with the given names. -/
def placeOf (names : List String) (k : Nat) : Char :=
  ((names[k]?).map fun name => (TokenKind.ofName name).placeholder).getD '□'

namespace Lexeme

/-- The names of tokens among lexemes. -/
def names (ls : List Lexeme) : List String :=
  (ls.filterMap word?).map String.ofList

@[simp] theorem names_nil : names [] = [] := rfl

@[simp] theorem names_symbol (sym : List Char) (ls : List Lexeme) :
    names (symbol sym :: ls) = names ls := rfl

@[simp] theorem names_word (w : List Char) (ls : List Lexeme) :
    names (word w :: ls) = String.ofList w :: names ls := rfl

@[simp] theorem names_gap (ls : List Lexeme) : names (gap :: ls) = names ls := rfl

@[simp] theorem names_append (ls ms : List Lexeme) : names (ls ++ ms) = names ls ++ names ms := by
  simp [names]

/-- The glyphs of lexemes, the words numbered from `k` on. -/
def glyphs : (k : Nat) → List Lexeme → List Glyph
  | _, [] => []
  | k, symbol sym :: ls => sym.map plain ++ glyphs k ls
  | k, word w :: ls =>
    ⟨(TokenKind.ofName (String.ofList w)).placeholder, some k⟩ :: glyphs (k + 1) ls
  | k, gap :: ls => glyphs k ls

theorem glyphs_append (k : Nat) (ls ms : List Lexeme) :
    glyphs k (ls ++ ms) = glyphs k ls ++ glyphs (k + (names ls).length) ms := by
  induction ls generalizing k with
  | nil => rfl
  | cons l ls ih =>
    cases l with
    | symbol sym => simp [glyphs, ih]
    | word w => simp [glyphs, ih, Nat.add_assoc, Nat.add_comm 1]
    | gap => simp [glyphs, ih]

theorem map_char_glyphs (k : Nat) (ls : List Lexeme) :
    (glyphs k ls).map Glyph.char = ls.flatMap chars := by
  induction ls generalizing k with
  | nil => rfl
  | cons l ls ih => cases l <;> simp [glyphs, chars, ih, Function.comp_def]

theorem filterMap_token_glyphs (k : Nat) (ls : List Lexeme) :
    (glyphs k ls).filterMap Glyph.token = List.range' k (names ls).length := by
  induction ls generalizing k with
  | nil => rfl
  | cons l ls ih => cases l <;> simp [glyphs, ih, List.range'_succ]

end Lexeme

namespace Spacing

theorem marked_glyphs {sp : Spacing} (h : sp.Reads) (k : Nat) :
    Glyph.Marked (Lexeme.glyphs k sp.lexemes) := by
  induction sp generalizing k with
  | done blanks => exact Glyph.marked_nil
  | next blanks lexeme sp ih =>
    cases lexeme with
    | symbol sym =>
      refine Glyph.marked_append.2 ⟨fun g hg => ?_, ih h.2 k⟩
      obtain ⟨c, hc, rfl⟩ := List.mem_map.1 hg
      exact (Piece.isPlaceholder_of_mem_symbols h.1.1 c hc).symm
    | word w =>
      exact Glyph.marked_cons.2 ⟨(TokenKind.isPlaceholder_placeholder _).symm, ih h.2 (k + 1)⟩
    | gap => exact h.1.elim

/-- No two words stand side by side. -/
theorem isChain_glyphs {sp : Spacing} (h : sp.Reads) (k : Nat) :
    (Lexeme.glyphs k sp.lexemes).IsChain fun g h => g.token.isSome = true → h.token = none := by
  induction sp generalizing k with
  | done blanks => exact .nil
  | next blanks lexeme sp ih =>
    cases lexeme with
    | gap => exact h.1.elim
    | symbol sym =>
      have plain : ∀ g ∈ sym.map plain, g.token.isSome ≠ true := by
        intro g hg
        obtain ⟨c, -, rfl⟩ := List.mem_map.1 hg
        exact Bool.false_ne_true
      refine List.isChain_append.2 ⟨?_, ih h.2 k, fun g hg _ _ hsome => ?_⟩
      · refine List.isChain_iff_forall_rel_of_append_cons_cons.2 fun {g _ l₁ l₂} heq hsome => ?_
        exact absurd hsome (plain g (heq ▸ by simp))
      · exact absurd hsome (plain g (List.mem_of_mem_getLast? hg))
    | word w =>
      have rest := ih h.2 (k + 1)
      obtain ⟨-, -, -, hcloses⟩ := h.1
      cases sp with
      | done blanks => exact .singleton _
      | next blanks lexeme sp =>
        cases lexeme with
        | symbol sym =>
          obtain ⟨c, cs, rfl⟩ := List.exists_cons_of_ne_nil h.2.1.text_ne_nil
          exact List.isChain_cons_cons.2 ⟨fun _ => rfl, rest⟩
        | word w => exact hcloses.elim
        | gap => exact hcloses.elim

end Spacing

/-! ## Formulas -/

namespace Skeleton

section Formula

variable {formula : String} {s : Skeleton} {tokens : List Token}
  (h : ofFormula formula = .ok (s, tokens))

include h

theorem names_of_ofFormula :
    tokens.map (·.text) = Lexeme.names (Piece.lexemesFrom [] formula.toList) :=
  (lexemes_of_ofFormula h).2

theorem placeholderAt_of_ofFormula : s.placeholderAt = placeOf (tokens.map (·.text)) := by
  have chars : s.chars.filter isPlaceholder = tokens.map Token.placeholder := by
    have := congrArg (List.map (·.char)) (placeholders_of_ofFormula h)
    rw [List.map_map] at this
    rw [Skeleton.chars, List.filter_map]
    exact this
  have kind : tokens.map Token.placeholder =
      tokens.map fun t => (TokenKind.ofName t.text).placeholder :=
    List.map_congr_left fun t ht => congrArg TokenKind.placeholder (kind_of_ofFormula h ht)
  funext k
  rw [placeholderAt, chars, kind, placeOf, List.getD_eq_getElem?_getD, List.getElem?_map,
    List.getElem?_map, Option.map_map]
  rfl

theorem glyphs_of_ofFormula :
    (Stretch.ofSkeleton s).glyphs = Lexeme.glyphs 0 (Piece.lexemesFrom [] formula.toList) := by
  obtain ⟨sp, -, hreads, -, lexemes, -⟩ := exists_layout_of_ofFormula h
  refine (Mark.marked_glyph _).ext (lexemes ▸ Spacing.marked_glyphs hreads 0) ?_ ?_
  · rw [Lexeme.map_char_glyphs, ← (lexemes_of_ofFormula h).1, ← Stretch.chars_ofSkeleton,
      Stretch.chars_eq_map_glyphs]
    rfl
  · rw [Lexeme.filterMap_token_glyphs, ← names_of_ofFormula h, List.length_map,
      ← List.range_eq_range', ← placeholderCount_of_ofFormula h]
    exact Stretch.tokens_ofSkeleton s

theorem spelt_of_ofFormula :
    Expr.Spelt s.placeholderAt (Stretch.ofSkeleton s).glyphs where
  labelled := Expr.labelled_ofSkeleton s
  marked := Mark.marked_glyph _
  apart := by
    obtain ⟨sp, -, hreads, -, lexemes, -⟩ := exists_layout_of_ofFormula h
    rw [glyphs_of_ofFormula h, ← lexemes]
    exact Spacing.isChain_glyphs hreads 0

end Formula

end Skeleton

end Formulary
