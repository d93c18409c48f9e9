import Formulary.Proofs.Number.Literal
import Formulary.Proofs.Skeleton.Spacing
import Mathlib.Data.List.Chain

/-! # Lexemes spelled out

Lexemes written one behind the other, with nothing between them, are cut apart again if no two of
them are words side by side and none is a star or a slash that the next one doubles.  A word may be
a name or any literal.
-/

namespace Formulary

open Piece

/-! ## Words -/

/-- A character that may stand anywhere in a word. -/
structure IsWordChar (c : Char) : Prop where
  isBlank : isBlank c = false
  isPlaceholder : isPlaceholder c = false
  isSymbolChar : isSymbolChar c = false

/-- A text that is one word wherever it is written. -/
structure IsWord (text : List Char) : Prop where
  ne_nil : text ≠ []
  isBlank : ∀ c ∈ text, isBlank c = false
  isPlaceholder : ∀ c ∈ text, isPlaceholder c = false
  unbroken : Unbroken [] text []
  /-- A sign behind it is not the sign of an exponent. -/
  complete : awaitsExponent text.reverse = false

/-- A text that has nothing in it that ends a word, and begins like no number: with a letter of any
script, for instance. -/
structure IsName (text : List Char) : Prop where
  head : ∃ c cs, text = c :: cs ∧ c.isDigit = false ∧ c ≠ '.'
  chars : ∀ c ∈ text, IsWordChar c

theorem IsName.isWord {text : List Char} (h : IsName text) : IsWord text where
  ne_nil := by
    obtain ⟨c, cs, rfl, -⟩ := h.head
    exact List.cons_ne_nil c cs
  isBlank c hc := (h.chars c hc).isBlank
  isPlaceholder c hc := (h.chars c hc).isPlaceholder
  unbroken := unbroken_of_plain (fun c hc => (h.chars c hc).isSymbolChar) [] []
  complete := by
    obtain ⟨c, cs, rfl, hdigit, hpoint⟩ := h.head
    refine Bool.eq_false_iff.2 fun hawait => ?_
    rw [List.reverse_cons] at hawait
    cases hrev : cs.reverse with
    | nil =>
      rw [hrev] at hawait
      obtain ⟨-, -, ⟨d, hd, -⟩, -⟩ := awaitsExponent_cons_iff.1 hawait
      cases hd
    | cons mark mantissa =>
      rw [hrev, List.cons_append] at hawait
      have := (awaitsExponent_cons_iff.1 hawait).2.1 c (by simp)
      simp [hdigit, hpoint] at this

namespace Literal

/-- The mark of an exponent behind a mantissa waits for the exponent. -/
theorem IsMantissa.awaitsExponent {m : List Char} (h : IsMantissa m) {mark : Char}
    (hmark : isExponentMark mark = true) : Piece.awaitsExponent (mark :: m.reverse) = true := by
  obtain ⟨c, hc, hdigit⟩ := h.exists_digit
  refine awaitsExponent_cons_iff.2 ⟨by simpa [isExponentMark] using hmark, ?_, ?_, ?_⟩
  · exact fun c hc => h.digit_or_point c (List.mem_reverse.1 hc)
  · exact ⟨c, List.mem_reverse.2 hc, hdigit⟩
  · rw [List.count_reverse]
    exact h.count_point

theorem isWordChar_of_digit_or_point {c : Char} (h : c.isDigit = true ∨ c = '.') :
    IsWordChar c := by
  rcases h with h | rfl
  · refine ⟨isBlank_of_isDigit h, Bool.eq_false_iff.2 fun hc => ?_, isSymbolChar_of_isDigit h⟩
    rcases isPlaceholder_iff.1 hc with rfl | rfl <;> cases h
  · exact ⟨rfl, rfl, rfl⟩

theorem isWordChar_of_isExponentMark {c : Char} (h : isExponentMark c = true) : IsWordChar c := by
  simp only [isExponentMark, Bool.or_eq_true, beq_iff_eq] at h
  rcases h with rfl | rfl <;> exact ⟨rfl, rfl, rfl⟩

/-- A text that ends with digits is one word if none of its signs cuts. -/
theorem isWord_append {cs ds : List Char} (hcs : ∀ c ∈ cs, IsWordChar c ∨ ∃ s : Sign, c = s.symbol)
    (hrun : Unbroken [] cs ds) (hne : ds ≠ []) (hds : ∀ c ∈ ds, c.isDigit = true ∨ c = '.') :
    IsWord (cs ++ ds) where
  ne_nil := List.append_ne_nil_of_right_ne_nil cs hne
  isBlank := by
    refine List.forall_mem_append.2 ⟨fun c hc => ?_, fun c hc => ?_⟩
    · rcases hcs c hc with h | ⟨s, rfl⟩
      · exact h.isBlank
      · cases s <;> rfl
    · exact (isWordChar_of_digit_or_point (hds c hc)).isBlank
  isPlaceholder := by
    refine List.forall_mem_append.2 ⟨fun c hc => ?_, fun c hc => ?_⟩
    · rcases hcs c hc with h | ⟨s, rfl⟩
      · exact h.isPlaceholder
      · cases s <;> rfl
    · exact (isWordChar_of_digit_or_point (hds c hc)).isPlaceholder
  unbroken := by
    rw [unbroken_append, List.append_nil]
    refine ⟨hrun, unbroken_of_plain (fun c hc => ?_) _ _⟩
    exact (isWordChar_of_digit_or_point (hds c hc)).isSymbolChar
  complete := by
    rw [List.reverse_append]
    exact awaitsExponent_reverse_append hne hds _

/-- The sign of an exponent does not cut. -/
theorem IsMantissa.unbroken {m : List Char} (hm : IsMantissa m) {mark : Char}
    (hmark : isExponentMark mark = true) (sign : Option Sign) {d : Char} (hd : d.isDigit = true)
    (rest : List Char) : Unbroken [] (m ++ mark :: (sign.map Sign.symbol).toList) (d :: rest) := by
  have plain : ∀ c ∈ m, isSymbolChar c = false := fun c hc =>
    (isWordChar_of_digit_or_point (hm.digit_or_point c hc)).isSymbolChar
  have letter := (isWordChar_of_isExponentMark hmark).isSymbolChar
  rw [unbroken_append]
  refine ⟨unbroken_of_plain plain _ _, fun hcut => by simp [letter] at hcut, ?_⟩
  cases sign with
  | none => trivial
  | some s =>
    refine ⟨fun _ => isExponentSign_iff.2 ⟨?_, ⟨d, rfl, hd⟩, ?_⟩, trivial⟩
    · cases s
      · exact .inl rfl
      · exact .inr rfl
    · rw [List.append_nil]
      exact hm.awaitsExponent hmark

/-- A literal is one word, with the sign of its exponent. -/
theorem isWord_of_read? {cs : List Char} {r : Rat} (h : read? cs = some r) : IsWord cs := by
  obtain ⟨m, x, rfl, hm, hx⟩ := exists_of_read? h
  cases hx with
  | none =>
    obtain ⟨c, hc, -⟩ := hm.exists_digit
    rw [List.append_nil]
    exact @isWord_append [] m (by simp) trivial (List.ne_nil_of_mem hc) hm.digit_or_point
  | @digits mark sign ds hmark hds =>
    obtain ⟨d, rest, rfl⟩ := List.exists_cons_of_ne_nil hds.1
    have text : m ++ mark :: ((sign.map Sign.symbol).toList ++ d :: rest) =
        m ++ mark :: (sign.map Sign.symbol).toList ++ d :: rest := by simp
    rw [text]
    refine isWord_append ?_ (hm.unbroken hmark sign (hds.2 d List.mem_cons_self) rest) hds.1
      fun c hc => .inl (hds.2 c hc)
    refine List.forall_mem_append.2 ⟨fun c hc => ?_, List.forall_mem_cons.2 ⟨?_, fun c hc => ?_⟩⟩
    · exact .inl (isWordChar_of_digit_or_point (hm.digit_or_point c hc))
    · exact .inl (isWordChar_of_isExponentMark hmark)
    · obtain ⟨s, -, rfl⟩ := Option.map_eq_some_iff.1 (Option.mem_toList.1 hc)
      exact .inr ⟨s, rfl⟩

end Literal

/-! ## Spelling -/

namespace Lexeme

/-- An operator, a bracket, a comma, a literal or a name. -/
def Spellable : Lexeme → Prop
  | symbol text => text ∈ symbols
  | word text => (∃ r, Literal.read? text = some r) ∨ IsName text
  | gap => False

/-- May the second lexeme stand right behind the first? -/
def Apart : Lexeme → Lexeme → Prop
  | symbol sym, symbol next => Ends sym next
  | word _, word _ => False
  | _, _ => True

theorem Spellable.isWord {text : List Char} (h : (word text).Spellable) : IsWord text := by
  rcases h with ⟨r, hr⟩ | hname
  · exact Literal.isWord_of_read? hr
  · exact hname.isWord

/-- A symbol ends where a lexeme begins that may stand behind it. -/
theorem Apart.ends {sym : List Char} {l : Lexeme} (h : (symbol sym).Apart l) (hl : l.Spellable)
    (rest : List Char) : Ends sym (l.text ++ rest) := by
  cases l with
  | symbol next => exact (ends_append (ne_nil_of_mem_symbols hl) rest).2 h
  | word w => exact (ends_append hl.isWord.ne_nil rest).2 (hl.isWord.unbroken.ends sym)
  | gap => exact hl.elim

theorem Spellable.isPlaceholder {l : Lexeme} (h : l.Spellable) :
    ∀ c ∈ l.text, isPlaceholder c = false := by
  cases l with
  | symbol sym => exact isPlaceholder_of_mem_symbols h
  | word w => exact h.isWord.isPlaceholder
  | gap => exact h.elim

theorem Spellable.chars_ne_nil {l : Lexeme} (h : l.Spellable) : l.chars ≠ [] := by
  cases l with
  | symbol sym => exact ne_nil_of_mem_symbols h
  | word w => exact List.cons_ne_nil _ _
  | gap => exact h.elim

end Lexeme

namespace Spacing

/-- Lexemes with nothing between them. -/
def ofLexemes : List Lexeme → Spacing
  | [] => done []
  | l :: ls => next [] l (ofLexemes ls)

theorem lexemes_ofLexemes (ls : List Lexeme) : (ofLexemes ls).lexemes = ls := by
  induction ls with
  | nil => rfl
  | cons l ls ih => rw [ofLexemes, lexemes, ih]

theorem text_ofLexemes (ls : List Lexeme) : (ofLexemes ls).text = ls.flatMap Lexeme.text := by
  induction ls with
  | nil => rfl
  | cons l ls ih => rw [ofLexemes, text, ih, List.nil_append, List.flatMap_cons]

theorem blank_ofLexemes (ls : List Lexeme) : (ofLexemes ls).Blank := by
  induction ls with
  | nil => simp [ofLexemes, Blank]
  | cons l ls ih => exact ⟨by simp, ih⟩

theorem reads_ofLexemes {ls : List Lexeme} (h : ∀ l ∈ ls, l.Spellable)
    (hapart : ls.IsChain Lexeme.Apart) : (ofLexemes ls).Reads := by
  induction ls with
  | nil => trivial
  | cons l ls ih =>
    obtain ⟨hl, hls⟩ := List.forall_mem_cons.1 h
    refine ⟨?_, ih hls hapart.tail⟩
    cases l with
    | gap => exact hl.elim
    | symbol sym =>
      refine ⟨hl, ?_⟩
      cases ls with
      | nil => exact ends_nil sym
      | cons next rest =>
        exact (List.isChain_cons_cons.1 hapart).1.ends (hls next List.mem_cons_self) _
    | word w =>
      have word := hl.isWord
      refine ⟨word.ne_nil, word.isBlank, word.unbroken, ?_⟩
      cases ls with
      | nil => trivial
      | cons next rest =>
        cases next with
        | symbol sym =>
          refine (closes_symbol (hls _ List.mem_cons_self) _).of_awaitsExponent ?_
          rw [List.reverse_nil, List.append_nil, List.nil_append]
          exact word.complete
        | word w' => exact (List.isChain_cons_cons.1 hapart).1.elim
        | gap => exact (hls _ List.mem_cons_self).elim

end Spacing

namespace Skeleton

/-- Tokenizing undoes spelling: lexemes that may stand side by side are found again in the text that
they are written out to, with their words as the tokens. -/
theorem ofFormula_spell {ls : List Lexeme} (hne : ls ≠ []) (h : ∀ l ∈ ls, l.Spellable)
    (hapart : ls.IsChain Lexeme.Apart) :
    (Piece.ofFormula (ls.flatMap Lexeme.text)).flatMap Piece.lexemes = ls ∧
      ∃ s tokens, ofFormula (String.ofList (ls.flatMap Lexeme.text)) = .ok (s, tokens) ∧
        s.chars = ls.flatMap Lexeme.chars ∧
        tokens.map (·.text) = (ls.filterMap Lexeme.word?).map String.ofList := by
  have found : Piece.lexemesFrom [] (ls.flatMap Lexeme.text) = ls := by
    rw [← Spacing.text_ofLexemes,
      Spacing.lexemesFrom_text (Spacing.blank_ofLexemes ls) (Spacing.reads_ofLexemes h hapart),
      Spacing.lexemes_ofLexemes]
  refine ⟨found, ofFormula_of_lexemes ?_ found ?_ ?_⟩
  · intro c hc
    obtain ⟨l, hl, hcl⟩ := List.mem_flatMap.1 hc
    exact (h l hl).isPlaceholder c hcl
  · exact fun hgap => h _ hgap
  · obtain ⟨l, rest, rfl⟩ := List.exists_cons_of_ne_nil hne
    rw [List.flatMap_cons]
    exact List.append_ne_nil_of_left_ne_nil (h l List.mem_cons_self).chars_ne_nil _

/-- A product with a root: the sign in `2e-3` is part of the number, the one behind `e` is not. -/
theorem ofFormula_spell_product :
    let ls : List Lexeme := [.word ['2', 'e', '-', '3'], .symbol ['*'], .word ['s', 'q', 'r', 't'],
      .symbol ['('], .word ['e'], .symbol ['-'], .word ['1'], .symbol [')']]
    (Piece.ofFormula "2e-3*sqrt(e-1)".toList).flatMap Piece.lexemes = ls ∧
      ∃ s tokens, ofFormula "2e-3*sqrt(e-1)" = .ok (s, tokens) ∧
        s.chars = ['□', '*', '■', '(', '□', '-', '□', ')'] ∧
        tokens.map (·.text) = ["2e-3", "sqrt", "e", "1"] := by
  intro ls
  have spellable : ∀ l ∈ ls, l.Spellable := by
    intro l hl
    simp only [ls, List.mem_cons, List.not_mem_nil, or_false] at hl
    rcases hl with rfl | rfl | rfl | rfl | rfl | rfl | rfl | rfl
    · exact .inl ⟨_, rfl⟩
    · exact (by decide : ['*'] ∈ symbols)
    · refine .inr ⟨⟨'s', ['q', 'r', 't'], rfl, rfl, by decide⟩, ?_⟩
      simpa using ⟨⟨rfl, rfl, rfl⟩, ⟨rfl, rfl, rfl⟩, ⟨rfl, rfl, rfl⟩, ⟨rfl, rfl, rfl⟩⟩
    · exact (by decide : ['('] ∈ symbols)
    · exact .inr ⟨⟨'e', [], rfl, rfl, by decide⟩, by simpa using ⟨rfl, rfl, rfl⟩⟩
    · exact (by decide : ['-'] ∈ symbols)
    · exact .inl ⟨_, rfl⟩
    · exact (by decide : [')'] ∈ symbols)
  exact ofFormula_spell (List.cons_ne_nil _ _) spellable (by simp [Lexeme.Apart])

end Skeleton

end Formulary
