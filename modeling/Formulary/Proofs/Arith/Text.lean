import Formulary.Proofs.Arith.Basic
import Formulary.Proofs.Expr.OfSkeleton
import Formulary.Proofs.Skeleton.Lexeme

/-! # How arithmetic is read

The text of a tree is cut into its numerals, operators and brackets, and read as the expression of
the tree, within the limits of the reader.
-/

namespace Formulary

namespace Numeral

variable (n : Numeral)

/-- No numeral is the name of a function. -/
theorem ofName_digits : TokenKind.ofName (String.ofList n.digits) = .ordinary := by
  have ne : ∀ name : String, name.toList.any (!·.isDigit) = true →
      String.ofList n.digits ≠ name := by
    rintro name hname rfl
    obtain ⟨c, hc, hdigit⟩ := List.any_eq_true.1 hname
    rw [String.toList_ofList] at hc
    rw [n.isDigit c hc] at hdigit
    cases hdigit
  rw [TokenKind.ofName, CallStyle.ofName, if_neg (ne "sqrt" rfl), if_neg (ne "abs" rfl)]

end Numeral

namespace Layout

open Piece

theorem symbol_mem_symbols (op : ArithOp) : op.binOp.symbol ∈ symbols := by
  cases op <;> simp [symbols, ArithOp.binOp, BinOp.symbol]

/-- The lexemes of what may be in brackets. -/
def wrapLexemes (brackets : Bool) (lexemes : List Lexeme) : List Lexeme :=
  if brackets then .symbol ['('] :: (lexemes ++ [.symbol [')']]) else lexemes

/-- The lexemes of the text of a tree. -/
def lexemes : Layout → Arith → List Lexeme
  | _, .numeral n => [.word n.digits]
  | full, .node op a b =>
    wrapLexemes true (lexemes full a ++ .symbol op.binOp.symbol :: lexemes full b)
  | minimal, .node op a b =>
    wrapLexemes (wrapsLeft op a) (lexemes minimal a) ++ .symbol op.binOp.symbol ::
      wrapLexemes (wrapsRight op b) (lexemes minimal b)

/-! ## Lexing -/

/-- Is the text, wherever it stands, cut into these lexemes? -/
def LexesTo (text : List Char) (ls : List Lexeme) : Prop :=
  ∀ b rest, (∀ c ∈ b, isBlank c = true) → Stops [] rest →
    lexemesFrom [] (b ++ (text ++ rest)) = ls ++ lexemesFrom [] rest

theorem lexesTo_numeral (n : Numeral) : LexesTo n.digits [.word n.digits] := by
  intro b rest hb hrest
  exact lexemesFrom_word hb n.nonempty (fun c hc => isBlank_of_isDigit (n.isDigit c hc))
    (unbroken_of_plain (fun c hc => isSymbolChar_of_isDigit (n.isDigit c hc)) _ _)
    (hrest.of_awaitsExponent
      (awaitsExponent_reverse_append n.nonempty (fun c hc => .inl (n.isDigit c hc)) _))

theorem LexesTo.wrap {text : List Char} {ls : List Lexeme} (h : LexesTo text ls) (brackets : Bool) :
    LexesTo (wrap brackets text) (wrapLexemes brackets ls) := by
  cases brackets with
  | false => exact h
  | true =>
    intro b rest hb hrest
    have bracket : ∀ {c : Char} rest, c = '(' ∨ c = ')' → [c] ∈ symbols ∧ Ends [c] rest := by
      rintro c rest (rfl | rfl) <;> exact ⟨by simp [symbols], by simp [Ends]⟩
    obtain ⟨open₁, open₂⟩ := bracket (text ++ ([')'] ++ rest)) (.inl rfl)
    obtain ⟨close₁, close₂⟩ := bracket rest (.inr rfl)
    have text' : Layout.wrap true text ++ rest = ['('] ++ (text ++ ([')'] ++ rest)) := by
      simp [Layout.wrap]
    have inner := h [] _ (by simp) (closes_symbol close₁ rest).stops
    rw [List.nil_append] at inner
    rw [text', lexemesFrom_blanks hb (closes_symbol open₁ _), lexemesFrom_symbol open₁ open₂, inner,
      lexemesFrom_symbol close₁ close₂]
    simp [wrapLexemes]

/-- An operation between two texts, with blanks around the operator or not. -/
theorem LexesTo.operation {text₁ text₂ : List Char} {ls₁ ls₂ : List Lexeme}
    (h₁ : LexesTo text₁ ls₁) (h₂ : LexesTo text₂ ls₂) (op : ArithOp) {sp : List Char}
    (hsp : ∀ c ∈ sp, isBlank c = true)
    (hend : ∀ rest, Ends op.binOp.symbol (sp ++ (text₂ ++ rest))) :
    LexesTo (text₁ ++ (sp ++ (op.binOp.symbol ++ (sp ++ text₂))))
      (ls₁ ++ .symbol op.binOp.symbol :: ls₂) := by
  intro b rest hb hrest
  have hop := symbol_mem_symbols op
  have closes := closes_symbol hop (sp ++ (text₂ ++ rest))
  have stops : Stops [] (sp ++ (op.binOp.symbol ++ (sp ++ (text₂ ++ rest)))) :=
    ⟨sp, _, hsp, rfl, closes.of_awaitsExponent (awaitsExponent_blanks hsp rfl)⟩
  have assoc : text₁ ++ (sp ++ (op.binOp.symbol ++ (sp ++ text₂))) ++ rest =
      text₁ ++ (sp ++ (op.binOp.symbol ++ (sp ++ (text₂ ++ rest)))) := by
    simp only [List.append_assoc]
  rw [assoc, h₁ b _ hb stops, lexemesFrom_blanks hsp closes, lexemesFrom_symbol hop (hend rest),
    h₂ sp rest hsp hrest, List.append_assoc]
  rfl

/-- A text begins with a digit or a bracket. -/
theorem exists_head_text (l : Layout) (t : Arith) :
    ∃ c cs, l.text t = c :: cs ∧ (c.isDigit = true ∨ c = '(') := by
  induction t with
  | numeral n =>
    obtain ⟨c, cs, h⟩ := List.exists_cons_of_ne_nil n.nonempty
    exact ⟨c, cs, by cases l <;> exact h, .inl (n.isDigit c (h ▸ List.mem_cons_self))⟩
  | node op a b iha _ =>
    cases l with
    | full => exact ⟨'(', _, rfl, .inr rfl⟩
    | minimal =>
      obtain ⟨c, cs, h, hc⟩ := iha
      rw [text]
      cases wrapsLeft op a with
      | true => exact ⟨'(', _, rfl, .inr rfl⟩
      | false => exact ⟨c, _, by rw [wrap, if_neg Bool.false_ne_true, h]; rfl, hc⟩

theorem ends_wrap (op : ArithOp) (l : Layout) (brackets : Bool) (t : Arith) (rest : List Char) :
    Ends op.binOp.symbol (wrap brackets (l.text t) ++ rest) := by
  obtain ⟨c, cs, h, hc⟩ := exists_head_text l t
  have head : ∃ c cs, wrap brackets (l.text t) ++ rest = c :: cs ∧
      (c.isDigit = true ∨ c = '(') := by
    cases brackets with
    | true => exact ⟨'(', _, rfl, .inr rfl⟩
    | false => exact ⟨c, _, by rw [wrap, if_neg Bool.false_ne_true, h]; rfl, hc⟩
  obtain ⟨c, cs, h, hc⟩ := head
  rw [h]
  refine ends_cons ?_ cs
  constructor <;>
  · rintro rfl
    rcases hc with hc | hc <;> cases hc

theorem lexesTo_text (l : Layout) (t : Arith) : LexesTo (l.text t) (l.lexemes t) := by
  induction t with
  | numeral n => cases l <;> exact lexesTo_numeral n
  | node op a b iha ihb =>
    cases l with
    | full =>
      have space : ∀ c ∈ [' '], isBlank c = true := by
        intro c hc
        rw [List.mem_singleton.1 hc]
        rfl
      have ends : ∀ rest, Ends op.binOp.symbol ([' '] ++ (text full b ++ rest)) :=
        fun rest => ends_cons (by decide) _
      have := (iha.operation ihb op space ends).wrap true
      simpa [text, lexemes] using this
    | minimal =>
      have := @LexesTo.operation _ _ _ _ (iha.wrap (wrapsLeft op a)) (ihb.wrap (wrapsRight op b)) op
        [] (by simp) (ends_wrap op minimal _ b)
      simpa [text, lexemes] using this

theorem lexemes_text (l : Layout) (t : Arith) :
    lexemesFrom [] (l.text t) = l.lexemes t := by
  have := lexesTo_text l t [] [] (by simp) (Closes.stops trivial)
  simpa [lexemesFrom_nil, ofCollected] using this

/-! ## Skeleton and tokens -/

theorem flatMap_chars_wrapLexemes (brackets : Bool) (ls : List Lexeme) (e : Expr)
    {place : Nat → Char} (h : ls.flatMap Lexeme.chars = e.spell place) :
    (wrapLexemes brackets ls).flatMap Lexeme.chars = (grouped brackets e).spell place := by
  cases brackets with
  | false => exact h
  | true => simp [wrapLexemes, grouped, Lexeme.chars, h]

/-- The lexemes of a text stand in the skeleton as the spelling of the expression. -/
theorem flatMap_chars_lexemes (l : Layout) (k : Nat) (t : Arith) :
    (l.lexemes t).flatMap Lexeme.chars = (l.expr k t).spell fun _ => '□' := by
  induction t generalizing k with
  | numeral n =>
    have : (Lexeme.word n.digits).chars = ['□'] := by
      rw [Lexeme.chars, n.ofName_digits]
      rfl
    cases l <;> simp [lexemes, expr, this]
  | node op a b iha ihb =>
    cases l with
    | full =>
      refine flatMap_chars_wrapLexemes true _ _ ?_
      simp [Lexeme.chars, iha k, ihb (k + a.size)]
    | minimal =>
      have left := flatMap_chars_wrapLexemes (wrapsLeft op a) _ _ (iha k)
      have right := flatMap_chars_wrapLexemes (wrapsRight op b) _ _ (ihb (k + a.size))
      simp [lexemes, expr, Lexeme.chars, left, right]

theorem filterMap_word?_wrapLexemes (brackets : Bool) (ls : List Lexeme) :
    (wrapLexemes brackets ls).filterMap Lexeme.word? = ls.filterMap Lexeme.word? := by
  cases brackets with
  | false => rfl
  | true => simp [wrapLexemes, List.filterMap_cons, Lexeme.word?]

theorem filterMap_word?_lexemes (l : Layout) (t : Arith) :
    (l.lexemes t).filterMap Lexeme.word? = t.numerals.map (·.digits) := by
  induction t with
  | numeral n => cases l <;> rfl
  | node op a b iha ihb =>
    cases l <;>
      simp [lexemes, filterMap_word?_wrapLexemes, List.filterMap_cons, Lexeme.word?, iha, ihb,
        Arith.numerals]

theorem gap_not_mem_wrapLexemes {brackets : Bool} {ls : List Lexeme} (h : .gap ∉ ls) :
    .gap ∉ wrapLexemes brackets ls := by
  cases brackets with
  | false => exact h
  | true => simpa [wrapLexemes] using h

theorem gap_not_mem_lexemes (l : Layout) (t : Arith) : .gap ∉ l.lexemes t := by
  induction t with
  | numeral n => cases l <;> simp [lexemes]
  | node op a b iha ihb =>
    cases l with
    | full => exact gap_not_mem_wrapLexemes (by simp [iha, ihb])
    | minimal => simp [lexemes, gap_not_mem_wrapLexemes iha, gap_not_mem_wrapLexemes ihb]

/-- What the texts are made of. -/
def isInk (c : Char) : Bool :=
  c.isDigit || c == ' ' || Piece.isSymbolChar c

theorem all_isInk_wrap {brackets : Bool} {cs : List Char} (h : cs.all isInk = true) :
    (wrap brackets cs).all isInk = true := by
  cases brackets with
  | false => exact h
  | true =>
    rw [wrap, if_pos rfl, List.cons_append, List.all_cons, List.all_append, h]
    rfl

theorem all_isInk_text (l : Layout) (t : Arith) : (l.text t).all isInk = true := by
  induction t with
  | numeral n =>
    have : n.digits.all isInk = true :=
      List.all_eq_true.2 fun c hc => by simp [isInk, n.isDigit c hc]
    cases l <;> exact this
  | node op a b iha ihb =>
    have hop : op.binOp.symbol.all isInk = true := by cases op <;> rfl
    have space : isInk ' ' = true := rfl
    cases l with
    | full => exact all_isInk_wrap (by simp [List.all_append, iha, ihb, hop, space])
    | minimal =>
      rw [text, List.all_append, List.all_append, all_isInk_wrap iha, hop, all_isInk_wrap ihb]
      rfl

theorem isPlaceholder_of_isInk {c : Char} (h : isInk c = true) : isPlaceholder c = false := by
  refine Bool.eq_false_iff.2 fun hc => ?_
  rcases isPlaceholder_iff.1 hc with rfl | rfl <;> cases h

/-! ## Brackets -/

def isBracket (c : Char) : Bool :=
  c == '(' || c == ')'

theorem filter_isBracket_wrap {brackets : Bool} {cs : List Char} {e : Expr} {place : Nat → Char}
    (h : cs.filter isBracket = (e.spell place).filter isBracket) :
    (wrap brackets cs).filter isBracket =
      ((grouped brackets e).spell place).filter isBracket := by
  cases brackets with
  | false => exact h
  | true => simp [wrap, grouped, isBracket, h]

/-- A text has the brackets of the spelling of its expression. -/
theorem filter_isBracket_text (l : Layout) (k : Nat) (t : Arith) :
    (l.text t).filter isBracket = ((l.expr k t).spell fun _ => '□').filter isBracket := by
  induction t generalizing k with
  | numeral n =>
    have none : n.digits.filter isBracket = [] := by
      refine List.filter_eq_nil_iff.2 fun c hc hb => ?_
      have digit := n.isDigit c hc
      simp only [isBracket, Bool.or_eq_true, beq_iff_eq] at hb
      rcases hb with rfl | rfl <;> cases digit
    cases l <;> exact none
  | node op a b iha ihb =>
    have hop : op.binOp.symbol.filter isBracket = [] := by cases op <;> rfl
    have space : isBracket ' ' = false := rfl
    cases l with
    | full =>
      refine @filter_isBracket_wrap true _ (.binary op.binOp _ _) _ ?_
      simp [space, hop, iha k, ihb (k + a.size)]
    | minimal =>
      have left := @filter_isBracket_wrap (wrapsLeft op a) _ _ _ (iha k)
      have right := @filter_isBracket_wrap (wrapsRight op b) _ _ _ (ihb (k + a.size))
      simp [text, expr, hop, left, right]

theorem exists_prefix_of_filter_eq {α : Type} {p : α → Bool} {xs ys q : List α}
    (h : xs.filter p = ys.filter p) (hq : q <+: ys) :
    ∃ r, r <+: xs ∧ r.filter p = q.filter p := by
  obtain ⟨rest, rfl⟩ := hq
  rw [List.filter_append] at h
  obtain ⟨r, r', rfl, hr, -⟩ := List.filter_eq_append_iff.1 h
  exact ⟨r, List.prefix_append r r', hr⟩

/-- The limit on the brackets of a text holds for its skeleton. -/
theorem count_le_of_prefix_spell {l : Layout} {t : Arith} {n : Nat}
    (h : ∀ p, p <+: l.text t → p.count '(' ≤ p.count ')' + n) {q : List Char}
    (hq : q <+: (l.expr 0 t).spell fun _ => '□') : q.count '(' ≤ q.count ')' + n := by
  obtain ⟨r, hr, heq⟩ := exists_prefix_of_filter_eq (filter_isBracket_text l 0 t) hq
  have count : ∀ {c}, isBracket c = true → r.count c = q.count c := by
    intro c hc
    rw [← List.count_filter hc, heq, List.count_filter hc]
  rw [← count (c := '(') rfl, ← count (c := ')') rfl]
  exact h r hr

/-! ## Reading -/

theorem placeholderAt_of_spell {s : Skeleton} {e : Expr}
    (h : s.chars = e.spell fun _ => '□') : s.placeholderAt = fun _ => '□' := by
  funext k
  rw [Skeleton.placeholderAt, List.getD_eq_getElem?_getD]
  cases hk : (s.chars.filter isPlaceholder)[k]? with
  | none => rfl
  | some c =>
    obtain ⟨hc, hplace⟩ := List.mem_filter.1 (List.mem_of_getElem? hk)
    obtain ⟨-, rfl⟩ := Expr.exists_place_of_mem_spell (fun _ => (rfl : isPlaceholder '□' = true))
      (h ▸ hc) hplace
    rfl

theorem ofFormula_text (l : Layout) {t : Arith} (h : l.WithinLimits t) :
    ∃ s tokens, Skeleton.ofFormula (String.ofList (l.text t)) = .ok (s, tokens) ∧
      Expr.ofSkeleton s tokens = .ok (l.expr 0 t) ∧
      tokens.map (·.text) = t.numerals.map fun n => String.ofList n.digits := by
  have plain : ∀ c ∈ l.text t, isPlaceholder c = false := fun c hc =>
    isPlaceholder_of_isInk (List.all_eq_true.1 (all_isInk_text l t) c hc)
  have chars := flatMap_chars_lexemes l 0 t
  have nonempty : (l.lexemes t).flatMap Lexeme.chars ≠ [] := by
    obtain ⟨c, cs, hc, -⟩ := Expr.exists_head_spell (fun _ => (rfl : isPlaceholder '□' = true))
      (l.expr 0 t)
    rw [chars, hc]
    exact List.cons_ne_nil c cs
  obtain ⟨s, tokens, hs, hchars, htexts⟩ :=
    Skeleton.ofFormula_of_lexemes plain (lexemes_text l t) (gap_not_mem_lexemes l t) nonempty
  rw [chars] at hchars
  rw [filterMap_word?_lexemes, List.map_map] at htexts
  have length : tokens.length = t.size := by
    rw [← t.length_numerals]
    simpa using congrArg List.length htexts
  refine ⟨s, tokens, hs, ?_, htexts⟩
  refine Expr.ofSkeleton_of_spell (wellFormed_expr l 0 t) ?_ ?_ ?_ h.height
  · rw [placeholderAt_of_spell hchars, hchars]
  · rw [tokenOrder_expr, length, List.range_eq_range']
  · exact fun p hp => count_le_of_prefix_spell h.nesting (hchars ▸ hp)

end Layout

end Formulary
