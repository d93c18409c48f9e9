import Formulary.Proofs.Skeleton.Numbered
import Formulary.Proofs.Skeleton.Spell

/-! # Renamed tokens

A name may be written in the place of another one.  However long it is, and whatever the operators
around it are, the formula is cut at the same places: a name does not begin like the exponent that a
sign before it may belong to, and it does not end like a number that waits for its exponent.
-/

namespace Formulary

open Piece

/-- A sign behind a word and blanks is not the sign of an exponent. -/
theorem Piece.awaitsExponent_word {text b : List Char} (h : IsWord text)
    (hb : ∀ c ∈ b, isBlank c = true) : awaitsExponent (text.reverse ++ b.reverse) = false := by
  refine Bool.eq_false_iff.2 fun hawait => ?_
  have bare := isBlank_of_awaitsExponent hawait
  obtain rfl : b = [] := Spacing.eq_nil_of_blank hb fun c hc =>
    bare c (List.mem_append_right _ (List.mem_reverse.2 hc))
  rw [List.reverse_nil, List.append_nil, h.complete] at hawait
  cases hawait

theorem IsWordChar.ne_star_slash {c : Char} (h : IsWordChar c) : c ≠ '*' ∧ c ≠ '/' := by
  refine ⟨?_, ?_⟩
  · rintro rfl
    cases h.isSymbolChar
  · rintro rfl
    cases h.isSymbolChar

/-- A name is no literal. -/
theorem IsName.read?_eq_none {text : List Char} (h : IsName text) : Literal.read? text = none := by
  refine Option.eq_none_iff_forall_ne_some.2 fun r hr => ?_
  obtain ⟨m, x, rfl, hm, -⟩ := Literal.exists_of_read? hr
  obtain ⟨d, hd, -⟩ := hm.exists_digit
  obtain ⟨c, cs, rfl⟩ := List.exists_cons_of_ne_nil (List.ne_nil_of_mem hd)
  obtain ⟨c', cs', hcs, hdigit, hpoint⟩ := h.head
  obtain ⟨rfl, -⟩ := List.cons.inj hcs
  rcases hm.digit_or_point c List.mem_cons_self with hc | hc
  · rw [hdigit] at hc
    cases hc
  · exact hpoint hc

/-- The name that a name is changed to. -/
def renamed (name new other : String) : String :=
  if other = name then new else other

theorem ofName_renamed {name new : String} (h : TokenKind.ofName new = .ofName name)
    (other : String) : TokenKind.ofName (renamed name new other) = .ofName other := by
  by_cases hname : other = name
  · rw [renamed, if_pos hname, h, hname]
  · rw [renamed, if_neg hname]

namespace Lexeme

variable {name new : List Char}

/-- The words are changed. -/
theorem names_map_rename (name new : String) (ls : List Lexeme) :
    names (ls.map (rename name.toList new.toList)) = (names ls).map (renamed name new) := by
  induction ls with
  | nil => rfl
  | cons l ls ih =>
    cases l with
    | symbol sym => simpa [rename] using ih
    | gap => simpa [rename] using ih
    | word w =>
      by_cases hw : w = name.toList
      · simp [rename, renamed, hw, ih]
      · have : String.ofList w ≠ name := fun h => hw (by rw [← h, String.toList_ofList])
        simp [rename, renamed, hw, this, ih]

/-- The skeleton is not changed if both names are of the same kind. -/
theorem chars_rename (h : TokenKind.ofName (String.ofList new) = .ofName (String.ofList name))
    (l : Lexeme) : (l.rename name new).chars = l.chars := by
  cases l with
  | symbol sym => rfl
  | gap => rfl
  | word w =>
    by_cases hw : w = name
    · simp [rename, chars, hw, h]
    · simp [rename, chars, hw]

end Lexeme

namespace Spacing

variable {name new : List Char}

theorem lexemes_rename (name new : List Char) (sp : Spacing) :
    (sp.rename name new).lexemes = sp.lexemes.map (Lexeme.rename name new) := by
  induction sp with
  | done blanks => rfl
  | next blanks lexeme sp ih => rw [rename, lexemes, ih, lexemes, List.map_cons]

theorem blank_rename {sp : Spacing} (h : sp.Blank) : (sp.rename name new).Blank := by
  induction sp with
  | done blanks => exact h
  | next blanks lexeme sp ih => exact ⟨h.1, ih h.2⟩

/-! ## Reading -/

/-- Whatever does not wait for an exponent is complete where a symbol follows. -/
theorem Closes.of_awaitsExponent {sp : Spacing} (hb : sp.Blank) (hsp : sp.Reads)
    {collected collected' : List Char} (h : sp.Closes collected)
    (hcollected : awaitsExponent collected' = false) : sp.Closes collected' := by
  cases sp with
  | done blanks => trivial
  | next blanks lexeme sp =>
    cases lexeme with
    | symbol sym =>
      exact (closes_symbol hsp.1.1 _).of_awaitsExponent (awaitsExponent_blanks hb.1 hcollected)
    | word w => exact h.elim
    | gap => exact h.elim

variable (hnew : IsName new)

include hnew

theorem beginsLike_rename_name {sp : Spacing} (h : sp.Reads) :
    BeginsLike sp.text (sp.rename name new).text := by
  obtain ⟨c, cs, rfl, hdigit, -⟩ := hnew.head
  exact beginsLike_rename h ⟨(hnew.chars c List.mem_cons_self).ne_star_slash, hdigit⟩ name cs

theorem Closes.rename {sp : Spacing} {collected : List Char} (hsp : sp.Reads)
    (h : sp.Closes collected) : (sp.rename name new).Closes collected := by
  cases sp with
  | done blanks => trivial
  | next blanks lexeme sp =>
    cases lexeme with
    | symbol sym => exact (beginsLike_rename_name hnew hsp.2).closes hsp.1.text_ne_nil h
    | word w => exact h.elim
    | gap => exact h.elim

/-- With a name in the place of words, every lexeme is still read as it is. -/
theorem reads_rename {sp : Spacing} (hb : sp.Blank) (h : sp.Reads) :
    (sp.rename name new).Reads := by
  induction sp with
  | done blanks => trivial
  | next blanks lexeme sp ih =>
    have kept : ReadsAt blanks (sp.rename name new) lexeme :=
      h.1.exchange (beginsLike_rename_name hnew h.2) fun _ => Closes.rename hnew h.2
    refine ⟨?_, ih hb.2 h.2⟩
    cases lexeme with
    | symbol sym => exact kept
    | gap => exact h.1.elim
    | word w =>
      rw [Lexeme.rename]
      split
      · -- what closed the old word closes the name too, which does not wait for an exponent
        obtain ⟨-, -, -, hcloses⟩ := kept
        refine ⟨hnew.isWord.ne_nil, hnew.isWord.isBlank, ?_, ?_⟩
        · exact unbroken_of_plain (fun c hc => (hnew.chars c hc).isSymbolChar) _ _
        · exact hcloses.of_awaitsExponent (blank_rename hb.2) (ih hb.2 h.2)
            (awaitsExponent_word hnew.isWord hb.1)
      · exact kept

end Spacing

/-! ## Formulas -/

namespace Skeleton

/-- The formula with a new name in the place of each token of the given name. -/
def rename (formula : String) (tokens : List Token) (name new : String) : String :=
  String.ofList (Token.splice name new.toList 0 formula.toList tokens)

theorem kinds_of_ofFormula {formula : String} {s : Skeleton} {tokens : List Token}
    (h : ofFormula formula = .ok (s, tokens)) :
    tokens.map Token.kind = (tokens.map (·.text)).map TokenKind.ofName := by
  rw [List.map_map]
  exact List.map_congr_left fun t ht => kind_of_ofFormula h ht

/-- With a new name of the same kind an accepted formula is accepted with the same skeleton and the
tokens are renamed. -/
theorem ofFormula_rename {formula name new : String} {s : Skeleton} {tokens : List Token}
    (h : ofFormula formula = .ok (s, tokens)) (hnew : IsName new.toList)
    (hkind : TokenKind.ofName new = .ofName name) :
    ∃ s' tokens', ofFormula (rename formula tokens name new) = .ok (s', tokens') ∧
      s'.chars = s.chars ∧ tokens'.map Token.kind = tokens.map Token.kind ∧
      tokens'.map (·.text) = (tokens.map (·.text)).map (renamed name new) := by
  obtain ⟨hplain, -⟩ := ofFormula_eq_ok_iff.1 h
  obtain ⟨sp, hb, hreads, -, hlexemes, hsplice⟩ := exists_layout_of_ofFormula h
  have chars : (sp.rename name.toList new.toList).lexemes.flatMap Lexeme.chars = s.chars := by
    rw [Spacing.lexemes_rename, List.flatMap_map, (lexemes_of_ofFormula h).1, ← hlexemes]
    refine List.flatMap_congr fun l _ => Lexeme.chars_rename ?_ l
    rw [String.ofList_toList, String.ofList_toList, hkind]
  have plain : ∀ c ∈ (sp.rename name.toList new.toList).text, isPlaceholder c = false := by
    rw [← hsplice]
    intro c hc
    rcases Token.mem_splice hc with hc | hc
    · exact hplain c hc
    · exact hnew.isWord.isPlaceholder c hc
  have hne : (sp.rename name.toList new.toList).lexemes.flatMap Lexeme.chars ≠ [] := by
    rw [chars, (lexemes_of_ofFormula h).1]
    exact flatMap_chars_lexemes_ne_nil h
  obtain ⟨s', tokens', h', hlexemes'⟩ :=
    ofFormula_of_layout (Spacing.blank_rename hb) (Spacing.reads_rename hnew hb hreads) plain hne
  have texts : tokens'.map (·.text) = (tokens.map (·.text)).map (renamed name new) := by
    rw [names_of_ofFormula h', hlexemes', Spacing.lexemes_rename, Lexeme.names_map_rename, hlexemes,
      names_of_ofFormula h]
  rw [rename, hsplice]
  refine ⟨s', tokens', h', ?_, ?_, texts⟩
  · rw [(lexemes_of_ofFormula h').1, hlexemes', chars]
  · rw [kinds_of_ofFormula h', texts, List.map_map, kinds_of_ofFormula h]
    exact List.map_congr_left fun other _ => ofName_renamed hkind other

end Skeleton

end Formulary
