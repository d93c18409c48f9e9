import Formulary.Proofs.Skeleton.Spacing

/-! # Formulas put into formulas

A formula in brackets may stand where a token stood.  What is read then is what was read before,
with the brackets and the lexemes of the inner formula in the place of the token: at its edges the
inner formula is held off by the brackets.
-/

namespace Formulary

namespace Token

/-- The stretch of the formula that a token takes up. -/
def word (t : Token) : Word :=
  ⟨t.position, t.text.toList⟩

/-- A text that begins at `i`, with a new text in the place of each token of the given name. -/
def splice (name : String) (new : List Char) : (i : Nat) → List Char → List Token → List Char
  | _, text, [] => text
  | i, text, t :: tokens =>
    if t.text = name then
      text.take (t.position - i) ++ new ++
        splice name new (t.position + t.text.toList.length)
          (text.drop (t.position - i + t.text.toList.length)) tokens
    else splice name new i text tokens

theorem mem_splice {name : String} {new text : List Char} {i : Nat} {tokens : List Token} {c : Char}
    (hc : c ∈ splice name new i text tokens) : c ∈ text ∨ c ∈ new := by
  fun_induction splice name new i text tokens with
  | case1 => exact .inl hc
  | case2 i text t tokens _ ih =>
    rcases List.mem_append.1 hc with hc | hc
    · exact (List.mem_append.1 hc).imp List.mem_of_mem_take id
    · exact (ih hc).imp List.mem_of_mem_drop id
  | case3 i text t tokens _ ih => exact ih hc

end Token

/-- A lexeme, with a new text if it is a word of the given name. -/
def Lexeme.rename (name new : List Char) : Lexeme → Lexeme
  | word w => word (if w = name then new else w)
  | symbol sym => symbol sym
  | gap => gap

/-- A lexeme, or the lexemes of an inner formula in brackets if it is the word to be replaced. -/
def Lexeme.splice (name : List Char) (inner : List Lexeme) : Lexeme → List Lexeme
  | word w => if w = name then symbol ['('] :: inner ++ [symbol [')']] else [word w]
  | symbol sym => [symbol sym]
  | gap => [gap]

namespace Lexeme

theorem flatMap_chars_splice_ne_nil {ls inner : List Lexeme} (h : ls.flatMap chars ≠ [])
    {name : List Char} : (ls.flatMap (splice name inner)).flatMap chars ≠ [] := by
  intro hnil
  rw [List.flatMap_assoc, List.flatMap_eq_nil_iff] at hnil
  refine h (List.flatMap_eq_nil_iff.2 fun l hl => ?_)
  have := hnil l hl
  cases l with
  | symbol sym => simpa [splice] using this
  | gap => rfl
  | word w =>
    rw [splice] at this
    split at this <;> simp [chars] at this

end Lexeme

namespace Spacing

open Piece

/-- The layout with a closing bracket behind it, and then the rest. -/
def closed : (sp rest : Spacing) → Spacing
  | done blanks, rest => next blanks (.symbol [')']) rest
  | next blanks lexeme sp, rest => next blanks lexeme (sp.closed rest)

/-- The layout with an inner one, in brackets, in the place of each word of the given name. -/
def splice (name : List Char) : (sp inner : Spacing) → Spacing
  | done blanks, _ => done blanks
  | next blanks (.word w) rest, inner =>
    if w = name then next blanks (.symbol ['(']) (inner.closed (rest.splice name inner))
    else next blanks (.word w) (rest.splice name inner)
  | next blanks (.symbol sym) rest, inner => next blanks (.symbol sym) (rest.splice name inner)
  | next blanks .gap rest, inner => next blanks .gap (rest.splice name inner)

/-- The layout with a new text in the place of each word of the given name. -/
def rename (name new : List Char) : Spacing → Spacing
  | done blanks => done blanks
  | next blanks lexeme rest => next blanks (lexeme.rename name new) (rest.rename name new)

variable {rest : Spacing} {name : List Char} {inner : Spacing}

theorem text_closed (sp rest : Spacing) : (sp.closed rest).text = sp.text ++ ')' :: rest.text := by
  induction sp with
  | done blanks => rfl
  | next blanks lexeme sp ih => simp [closed, text, ih]

theorem lexemes_closed (sp rest : Spacing) :
    (sp.closed rest).lexemes = sp.lexemes ++ .symbol [')'] :: rest.lexemes := by
  induction sp with
  | done blanks => rfl
  | next blanks lexeme sp ih => rw [closed, lexemes, ih, lexemes, List.cons_append]

theorem blank_closed (hrest : rest.Blank) {sp : Spacing} (h : sp.Blank) :
    (sp.closed rest).Blank := by
  induction sp with
  | done blanks => exact ⟨h, hrest⟩
  | next blanks lexeme sp ih => exact ⟨h.1, ih h.2⟩

theorem lexemes_splice (name : List Char) (sp inner : Spacing) :
    (sp.splice name inner).lexemes = sp.lexemes.flatMap (Lexeme.splice name inner.lexemes) := by
  induction sp with
  | done blanks => rfl
  | next blanks lexeme sp ih =>
    cases lexeme with
    | symbol sym => simp [splice, lexemes, Lexeme.splice, ih]
    | gap => simp [splice, lexemes, Lexeme.splice, ih]
    | word w =>
      by_cases hw : w = name
      · simp [splice, lexemes, Lexeme.splice, hw, lexemes_closed, ih]
      · simp [splice, lexemes, Lexeme.splice, hw, ih]

theorem text_splice (name : List Char) (sp inner : Spacing) :
    (sp.splice name inner).text = (sp.rename name ('(' :: inner.text ++ [')'])).text := by
  induction sp with
  | done blanks => rfl
  | next blanks lexeme sp ih =>
    cases lexeme with
    | symbol sym => simp [splice, rename, text, Lexeme.rename, ih]
    | gap => simp [splice, rename, text, Lexeme.rename, ih]
    | word w =>
      by_cases hw : w = name
      · simp [splice, rename, text, Lexeme.rename, Lexeme.text, hw, text_closed, ih]
      · simp [splice, rename, text, Lexeme.rename, hw, ih]

theorem blank_splice (hinner : inner.Blank) {sp : Spacing} (h : sp.Blank) :
    (sp.splice name inner).Blank := by
  induction sp with
  | done blanks => exact h
  | next blanks lexeme sp ih =>
    cases lexeme with
    | symbol sym => exact ⟨h.1, ih h.2⟩
    | gap => exact ⟨h.1, ih h.2⟩
    | word w =>
      rw [splice]
      split
      · exact ⟨h.1, blank_closed (ih h.2) hinner⟩
      · exact ⟨h.1, ih h.2⟩

/-! ## Reading -/

/-- Does the second text begin as the first does, or else with a character that neither doubles an
operator nor continues an exponent? -/
def BeginsLike (xs ys : List Char) : Prop :=
  ys.head? = xs.head? ∨ ∃ c, ys.head? = some c ∧ (c ≠ '*' ∧ c ≠ '/') ∧ c.isDigit = false

theorem BeginsLike.ends {xs ys : List Char} (h : BeginsLike xs ys) {sym : List Char}
    (hends : Ends sym xs) : Ends sym ys := by
  rcases h with h | ⟨c, hc, hne, -⟩
  · have head : ∀ {c : Char}, [c] <+: ys → [c] <+: xs := by
      rintro c ⟨cs, rfl⟩
      obtain ⟨ds, rfl⟩ := List.head?_eq_some_iff.1 h.symm
      exact ⟨ds, rfl⟩
    rintro (rfl | rfl) hstart
    · exact hends (.inl rfl) (head hstart)
    · exact hends (.inr rfl) (head hstart)
  · obtain ⟨cs, rfl⟩ := List.head?_eq_some_iff.1 hc
    exact ends_cons hne cs

/-- A symbol that ends a run still does so: what is behind it makes no exponent of a sign. -/
theorem BeginsLike.closes {xs ys : List Char} (h : BeginsLike xs ys) {collected sym : List Char}
    (hne : sym ≠ []) (hcloses : Piece.Closes collected (sym ++ xs)) :
    Piece.Closes collected (sym ++ ys) := by
  obtain ⟨c, cs, rfl⟩ := List.exists_cons_of_ne_nil hne
  obtain ⟨hc, hcut⟩ := hcloses
  refine ⟨hc, Bool.eq_false_iff.2 fun hsign => Bool.eq_false_iff.1 hcut ?_⟩
  obtain ⟨sign, ⟨d, hd, hdigit⟩, await⟩ := isExponentSign_iff.1 hsign
  refine isExponentSign_iff.2 ⟨sign, ⟨d, ?_, hdigit⟩, await⟩
  cases cs with
  | cons e es => exact hd
  | nil =>
    rcases h with h | ⟨e, he, -, hplain⟩
    · exact h.symm.trans hd
    · obtain rfl := Option.some.inj (he.symm.trans hd)
      rw [hdigit] at hplain
      cases hplain

theorem closes_bracket (blanks collected cs : List Char) :
    Piece.Closes (blanks.reverse ++ collected) (')' :: cs) :=
  ⟨rfl, by simp [isExponentSign]⟩

/-- What follows a lexeme may be exchanged if it begins alike and ends a run alike. -/
theorem ReadsAt.exchange {blanks : List Char} {rest rest' : Spacing} {l : Lexeme}
    (h : ReadsAt blanks rest l) (hbegins : BeginsLike rest.text rest'.text)
    (hcloses : ∀ collected, rest.Closes collected → rest'.Closes collected) :
    ReadsAt blanks rest' l := by
  cases l with
  | symbol sym => exact ⟨h.1, hbegins.ends h.2⟩
  | word w =>
    obtain ⟨hne, hw, hrun, hclose⟩ := h
    exact ⟨hne, hw, hrun, hcloses _ hclose⟩
  | gap => exact h

theorem beginsLike_closed (sp rest : Spacing) : BeginsLike sp.text (sp.closed rest).text := by
  rw [text_closed]
  cases sp.text with
  | nil => exact .inr ⟨')', rfl, by decide, rfl⟩
  | cons c cs => exact .inl rfl

theorem Closes.closed (rest : Spacing) {sp : Spacing} {collected : List Char} (hsp : sp.Reads)
    (h : sp.Closes collected) : (sp.closed rest).Closes collected := by
  cases sp with
  | done blanks => exact closes_bracket blanks collected rest.text
  | next blanks lexeme sp =>
    cases lexeme with
    | symbol sym => exact (beginsLike_closed sp rest).closes hsp.1.text_ne_nil h
    | word w => exact h.elim
    | gap => exact h.elim

theorem reads_closed (hrest : rest.Reads) {sp : Spacing} (h : sp.Reads) :
    (sp.closed rest).Reads := by
  induction sp with
  | done blanks => exact ⟨⟨by decide, by simp [Ends]⟩, hrest⟩
  | next blanks lexeme sp ih =>
    refine ⟨h.1.exchange (beginsLike_closed sp rest) fun _ => ?_, ih h.2⟩
    exact Closes.closed rest h.2

theorem beginsLike_rename {sp : Spacing} (h : sp.Reads) {c : Char}
    (hc : (c ≠ '*' ∧ c ≠ '/') ∧ c.isDigit = false) (name cs : List Char) :
    BeginsLike sp.text (sp.rename name (c :: cs)).text := by
  cases sp with
  | done blanks => exact .inl rfl
  | next blanks lexeme sp =>
    cases blanks with
    | cons b bs => exact .inl rfl
    | nil =>
      obtain ⟨d, ds, hl⟩ := List.exists_cons_of_ne_nil h.1.text_ne_nil
      cases lexeme with
      | symbol sym => exact .inl (by simp [rename, Lexeme.rename, text, hl])
      | gap => exact h.1.elim
      | word w =>
        rw [rename, Lexeme.rename]
        split
        · exact .inr ⟨c, rfl, hc⟩
        · exact .inl (by simp [text, hl])

theorem beginsLike_splice {sp : Spacing} (h : sp.Reads) (name : List Char) (inner : Spacing) :
    BeginsLike sp.text (sp.splice name inner).text := by
  rw [text_splice]
  exact beginsLike_rename h ⟨by decide, rfl⟩ name _

theorem Closes.splice {sp : Spacing} {collected : List Char} (hsp : sp.Reads)
    (h : sp.Closes collected) : (sp.splice name inner).Closes collected := by
  cases sp with
  | done blanks => trivial
  | next blanks lexeme sp =>
    cases lexeme with
    | symbol sym => exact (beginsLike_splice hsp.2 name inner).closes hsp.1.text_ne_nil h
    | word w => exact h.elim
    | gap => exact h.elim

/-- With a formula in the place of words, every lexeme is still read as it is. -/
theorem reads_splice (hinner : inner.Reads) {sp : Spacing} (h : sp.Reads) :
    (sp.splice name inner).Reads := by
  induction sp with
  | done blanks => trivial
  | next blanks lexeme sp ih =>
    have kept := h.1.exchange (beginsLike_splice h.2 name inner) fun _ => Closes.splice h.2
    cases lexeme with
    | symbol sym => exact ⟨kept, ih h.2⟩
    | gap => exact h.1.elim
    | word w =>
      rw [splice]
      split
      · exact ⟨⟨by decide, by simp [Ends]⟩, reads_closed (ih h.2) hinner⟩
      · exact ⟨kept, ih h.2⟩

/-! ## The text -/

/-- Splicing at the positions of the tokens is splicing at the words of the layout. -/
theorem splice_tokens (name : String) (new : List Char) (sp : Spacing) {i j : Nat}
    {before : List Char} (hj : i = j + before.length) {tokens : List Token}
    (h : tokens.map Token.word = sp.words i) :
    Token.splice name new j (before ++ sp.text) tokens =
      before ++ (sp.rename name.toList new).text := by
  subst hj
  induction sp generalizing j before tokens with
  | done blanks =>
    obtain rfl := List.map_eq_nil_iff.1 h
    rfl
  | next blanks lexeme sp ih =>
    cases lexeme with
    | symbol sym =>
      have := @ih j (before ++ (blanks ++ sym)) tokens (by simpa [words, Nat.add_assoc] using h)
      simpa [rename, text, Lexeme.rename, Lexeme.text] using this
    | gap =>
      have := @ih j (before ++ blanks) tokens (by simpa [words, Nat.add_assoc] using h)
      simpa [rename, text, Lexeme.rename, Lexeme.text] using this
    | word w =>
      obtain ⟨t, ts, rfl, ht, hts⟩ := List.map_eq_cons_iff.1 h
      obtain ⟨hpos, rfl⟩ := Word.mk.inj ht
      rw [rename, Lexeme.rename, Token.splice]
      by_cases hname : t.text = name
      · have shift : t.position - j = (before ++ blanks).length := by
          rw [hpos, List.length_append]
          omega
        have front : before ++ (blanks ++ (t.text.toList ++ sp.text)) =
            (before ++ blanks) ++ (t.text.toList ++ sp.text) := by simp
        have := @ih (t.position + t.text.toList.length) [] ts (by rw [hts, hpos]; rfl)
        rw [List.nil_append, List.nil_append] at this
        rw [if_pos hname, if_pos (by rw [hname]), text, Lexeme.text, front, shift, List.take_left,
          List.drop_length_add_append, List.drop_left, this]
        simp [text, Lexeme.text]
      · have := @ih j (before ++ (blanks ++ t.text.toList)) ts
          (by simpa [Nat.add_assoc] using hts)
        rw [if_neg hname, if_neg (fun h => hname (String.toList_inj.1 h))]
        simpa [text, Lexeme.text] using this

end Spacing

/-! ## Formulas -/

namespace Skeleton

theorem map_word_of_ofFormula {formula : String} {s : Skeleton} {tokens : List Token}
    (h : ofFormula formula = .ok (s, tokens)) :
    tokens.map Token.word = Spacing.wordsOf 0 (Piece.ofFormula formula.toList) := by
  obtain ⟨-, -, -, -, -, rfl⟩ := ofFormula_eq_ok_iff.1 h
  have := @Word.map_tokens _ Token.word id
    (fun w _ => congrArg (Word.mk w.position) String.toList_ofList)
    (Spacing.wordsOf 0 (Piece.ofFormula formula.toList))
  rwa [List.map_id] at this

/-- An accepted formula is laid out, and so is the formula with a new text in the place of each token
of some name. -/
theorem exists_layout_of_ofFormula {formula : String} {s : Skeleton} {tokens : List Token}
    (h : ofFormula formula = .ok (s, tokens)) :
    ∃ sp : Spacing, sp.Blank ∧ sp.Reads ∧ sp.text = formula.toList ∧
      sp.lexemes = Piece.lexemesFrom [] formula.toList ∧
      ∀ (name : String) (new : List Char),
        Token.splice name new 0 formula.toList tokens = (sp.rename name.toList new).text := by
  obtain ⟨-, hgap, -⟩ := ofFormula_eq_ok_iff.1 h
  obtain ⟨sp, hsp⟩ := Spacing.exists_lays hgap
  refine ⟨sp, hsp.blank, hsp.reads, hsp.text, ?_, fun name new => ?_⟩
  · rw [← hsp.text, Spacing.lexemesFrom_text hsp.blank hsp.reads]
  · have := @Spacing.splice_tokens name new sp 0 0 [] rfl tokens
      ((map_word_of_ofFormula h).trans (hsp.words 0).symm)
    rwa [hsp.text] at this

/-- What is laid out is accepted, with the lexemes of the layout. -/
theorem ofFormula_of_layout {sp : Spacing} (hb : sp.Blank) (hreads : sp.Reads)
    (hplain : ∀ c ∈ sp.text, isPlaceholder c = false) (hne : sp.lexemes.flatMap Lexeme.chars ≠ []) :
    ∃ s tokens, ofFormula (String.ofList sp.text) = .ok (s, tokens) ∧
      Piece.lexemesFrom [] (String.ofList sp.text).toList = sp.lexemes := by
  have lexemes := Spacing.lexemesFrom_text hb hreads
  obtain ⟨s, tokens, hok, -⟩ := ofFormula_of_lexemes hplain lexemes hreads.gap_not_mem hne
  exact ⟨s, tokens, hok, by rw [String.toList_ofList, lexemes]⟩

/-- The lexemes of an accepted formula are not nothing. -/
theorem flatMap_chars_lexemes_ne_nil {formula : String} {s : Skeleton} {tokens : List Token}
    (h : ofFormula formula = .ok (s, tokens)) :
    (Piece.lexemesFrom [] formula.toList).flatMap Lexeme.chars ≠ [] := by
  obtain ⟨-, -, hne, -⟩ := ofFormula_eq_ok_iff.1 h
  rw [← (lexemes_of_ofFormula h).1]
  exact fun hnil => hne (List.map_eq_nil_iff.1 hnil)

/-- The formula with an inner formula, in brackets, in the place of each token of the given name. -/
def splice (formula : String) (tokens : List Token) (name inner : String) : String :=
  String.ofList (Token.splice name ('(' :: inner.toList ++ [')']) 0 formula.toList tokens)

/-- Accepted formulas put together are accepted, and their lexemes are put together in the same
way. -/
theorem ofFormula_splice {formula inner : String} {s sᵢ : Skeleton} {tokens tokensᵢ : List Token}
    (h : ofFormula formula = .ok (s, tokens)) (hᵢ : ofFormula inner = .ok (sᵢ, tokensᵢ))
    (name : String) :
    ∃ s' tokens', ofFormula (splice formula tokens name inner) = .ok (s', tokens') ∧
      Piece.lexemesFrom [] (splice formula tokens name inner).toList =
        (Piece.lexemesFrom [] formula.toList).flatMap
          (Lexeme.splice name.toList (Piece.lexemesFrom [] inner.toList)) := by
  obtain ⟨hplain, -⟩ := ofFormula_eq_ok_iff.1 h
  obtain ⟨hplainᵢ, -⟩ := ofFormula_eq_ok_iff.1 hᵢ
  obtain ⟨sp, hb, hreads, -, hlexemes, hsplice⟩ := exists_layout_of_ofFormula h
  obtain ⟨spᵢ, hbᵢ, hreadsᵢ, htextᵢ, hlexemesᵢ, -⟩ := exists_layout_of_ofFormula hᵢ
  have text : Token.splice name ('(' :: inner.toList ++ [')']) 0 formula.toList tokens =
      (sp.splice name.toList spᵢ).text := by
    rw [hsplice, Spacing.text_splice, htextᵢ]
  have plain : ∀ c ∈ (sp.splice name.toList spᵢ).text, isPlaceholder c = false := by
    rw [← text]
    intro c hc
    rcases Token.mem_splice hc with hc | hc
    · exact hplain c hc
    · simp only [List.cons_append, List.mem_cons, List.mem_append, List.not_mem_nil,
        or_false] at hc
      rcases hc with rfl | hc | rfl
      · rfl
      · exact hplainᵢ c hc
      · rfl
  rw [splice, text, ← hlexemes, ← hlexemesᵢ, ← Spacing.lexemes_splice]
  refine ofFormula_of_layout (Spacing.blank_splice hbᵢ hb) (Spacing.reads_splice hreadsᵢ hreads)
    plain ?_
  rw [Spacing.lexemes_splice]
  exact Lexeme.flatMap_chars_splice_ne_nil (hlexemes ▸ flatMap_chars_lexemes_ne_nil h)

end Skeleton

end Formulary
