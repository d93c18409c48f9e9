import Formulary.Binding.Meaning
import Formulary.Proofs.Expr.OfSkeleton
import Formulary.Proofs.Expr.Write
import Formulary.Proofs.Template
import Mathlib.Data.List.Basic

/-! # Drawing with texts

A formula is drawn in two steps, by a template and by texts that fill it.  The outcome is the same
as if the texts had been drawn into the expression at once.
-/

namespace Formulary

open Glyph (plain)

/-- The placeholder of a token as a glyph; nothing if there is no such token. -/
def Token.glyphAt (tokens : List Token) (i : Nat) : List Glyph :=
  (placeholderAt tokens i).map fun c => ⟨c, some i⟩

theorem Token.placeholderAt_eq (tokens : List Token) (i : Nat) :
    placeholderAt tokens i = [] ∧ tokens.length ≤ i ∨
      i < tokens.length ∧ ∃ t : Token, placeholderAt tokens i = [t.placeholder] := by
  by_cases h : i < tokens.length
  · exact .inr ⟨h, tokens[i], by simp [placeholderAt, h]⟩
  · exact .inl ⟨by simp [placeholderAt, Nat.le_of_not_lt h], Nat.le_of_not_lt h⟩

theorem Token.isPlaceholder_placeholder (t : Token) : isPlaceholder t.placeholder = true :=
  t.kind.isPlaceholder_placeholder

theorem Token.flatMap_placeholderAt_range (tokens : List Token) :
    (List.range tokens.length).flatMap (placeholderAt tokens) = tokens.map placeholder := by
  induction tokens with
  | nil => rfl
  | cons t tokens ih =>
    rw [List.length_cons, List.range_succ_eq_map, List.flatMap_cons, List.flatMap_map]
    exact congrArg (t.placeholder :: ·) ih

theorem Token.flatMap_placeholderAt (tokens : List Token) (i : Nat) {f : Char → List Char}
    (hf : ∀ c, isPlaceholder c = true → f c = [c]) :
    (placeholderAt tokens i).flatMap f = placeholderAt tokens i := by
  rcases placeholderAt_eq tokens i with ⟨h, _⟩ | ⟨_, t, h⟩
  · rw [h]
    rfl
  · rw [h, List.flatMap_singleton, hf _ t.isPlaceholder_placeholder]

namespace Expr

/-- A template in glyphs. -/
def typesetGlyphs (tokens : List Token) (options : Options) (e : Expr) : List Glyph :=
  write (fun c => (sizeBracket c).map plain) (Token.glyphAt tokens) (Token.styleAt tokens) options
    false e

theorem sizeBracket_placeholder {c : Char} (h : isPlaceholder c = true) : sizeBracket c = [c] := by
  rcases isPlaceholder_iff.1 h with rfl | rfl <;> rfl

theorem map_char_typesetGlyphs (tokens : List Token) (options : Options) (e : Expr) :
    (e.typesetGlyphs tokens options).map Glyph.char = (e.typeset tokens options).toList := by
  have place : ∀ i, (Token.glyphAt tokens i).map Glyph.char =
      (Token.placeholderAt tokens i).flatMap sizeBracket := fun i => by
    rw [Token.flatMap_placeholderAt tokens i fun _ => sizeBracket_placeholder]
    simp [Token.glyphAt, Function.comp_def]
  rw [typeset, String.toList_ofList, render_eq_write, flatMap_write, typesetGlyphs,
    List.map_eq_flatMap, flatMap_write]
  simp only [← List.map_eq_flatMap, place, Glyph.map_char_plain, List.flatMap_singleton]

theorem marked_typesetGlyphs {tokens : List Token} {options : Options}
    (hmul : ∀ c ∈ options.mulSymbol.toList, isPlaceholder c = false) (e : Expr) :
    Glyph.Marked (e.typesetGlyphs tokens options) := by
  refine forall_mem_write ?_ ?_ hmul false e
  · intro c hc g hg
    obtain ⟨c', hc', rfl⟩ := List.mem_map.1 hg
    have ink : ∀ c' ∈ sizeBracket c, isPlaceholder c' = false := by
      unfold sizeBracket
      split
      · exact forall_not_isPlaceholder rfl
      · split
        · exact forall_not_isPlaceholder rfl
        · simpa using hc
    exact (ink c' hc').symm
  · intro i g hg
    obtain ⟨c, hc, rfl⟩ := List.mem_map.1 hg
    rcases Token.placeholderAt_eq tokens i with ⟨h, _⟩ | ⟨_, t, h⟩
    · simp [h] at hc
    · obtain rfl : c = t.placeholder := by simpa [h] using hc
      exact t.isPlaceholder_placeholder.symm

/-- A template has the placeholders of the tokens, in reading order. -/
theorem filter_isPlaceholder_typeset {tokens : List Token} {options : Options}
    (hmul : ∀ c ∈ options.mulSymbol.toList, isPlaceholder c = false) (e : Expr) :
    (e.typeset tokens options).toList.filter isPlaceholder =
      e.tokenOrder.flatMap (Token.placeholderAt tokens) := by
  rw [← map_char_typesetGlyphs, (marked_typesetGlyphs hmul e).filter_chars, typesetGlyphs,
    flatMap_write, ← @write_no_ink _ _ (Token.styleAt tokens) options false e]
  congr 1
  · funext c
    simp [List.flatMap_map]
  · funext i
    simp [Token.glyphAt, List.flatMap_map]

theorem filterMap_token_typesetGlyphs {tokens : List Token} {options : Options} {e : Expr}
    (h : e.tokenOrder = List.range tokens.length) :
    (e.typesetGlyphs tokens options).filterMap Glyph.token = List.range tokens.length := by
  have place : ∀ i < tokens.length, (Token.glyphAt tokens i).flatMap (·.token.toList) = [i] := by
    intro i hi
    rcases Token.placeholderAt_eq tokens i with ⟨_, hle⟩ | ⟨_, t, ht⟩
    · omega
    · simp [Token.glyphAt, ht]
  have only : ∀ is : List Nat, (∀ i ∈ is, i < tokens.length) →
      is.flatMap (fun i => (Token.glyphAt tokens i).flatMap (·.token.toList)) = is := by
    intro is
    induction is with
    | nil => intro _; rfl
    | cons i is ih =>
      intro his
      obtain ⟨hi, his⟩ := List.forall_mem_cons.1 his
      rw [List.flatMap_cons, place i hi, ih his, List.singleton_append]
  have ink : (fun c => ((sizeBracket c).map plain).flatMap (·.token.toList)) =
      fun _ => ([] : List Nat) := by
    funext c
    simp [List.flatMap_map]
  rw [List.filterMap_eq_flatMap_toList, typesetGlyphs, flatMap_write, ink, write_no_ink, h]
  exact only _ fun i hi => List.mem_range.1 hi

/-- The drawing of an expression in which each token is drawn as its text, whatever the text
holds. -/
def draw (tokens : List Token) (options : Options) (texts : List String) (e : Expr) : String :=
  String.ofList (write sizeBracket (fun i => (texts[i]?.getD "").toList) (Token.styleAt tokens)
    options false e)

theorem flatMap_drawn_typesetGlyphs {tokens : List Token} {options : Options}
    {texts : List String} (h : texts.length = tokens.length) (e : Expr) :
    String.ofList ((e.typesetGlyphs tokens options).flatMap (Template.drawn texts)) =
      e.draw tokens options texts := by
  rw [draw, typesetGlyphs, flatMap_write]
  congr 2
  · funext c
    simp [List.flatMap_map, Template.drawn]
  · funext i
    rcases Token.placeholderAt_eq tokens i with ⟨hi, hle⟩ | ⟨_, t, hi⟩
    · simp [Token.glyphAt, hi, List.getElem?_eq_none (h ▸ hle)]
    · simp [Token.glyphAt, hi, Template.drawn]

/-- A template is filled with any texts, one for each token, and the outcome is the drawing. -/
theorem fill_typeset_of_tokenOrder {tokens : List Token} {options : Options}
    (hmul : ∀ c ∈ options.mulSymbol.toList, isPlaceholder c = false) {e : Expr}
    (horder : e.tokenOrder = List.range tokens.length) {texts : List String}
    (h : texts.length = tokens.length) :
    Template.fill (e.typeset tokens options) tokens texts = .ok (e.draw tokens options texts) := by
  have placeholders : (e.typeset tokens options).toList.filter isPlaceholder =
      tokens.map Token.placeholder := by
    rw [filter_isPlaceholder_typeset hmul, horder, Token.flatMap_placeholderAt_range]
  have numbered : (e.typesetGlyphs tokens options).filterMap Glyph.token =
      List.range' 0 (texts.length - 0) := by
    rw [filterMap_token_typesetGlyphs horder, h, List.range_eq_range', Nat.sub_zero]
  have texts := Template.substitute_map_char (marked_typesetGlyphs hmul e) numbered
  rw [map_char_typesetGlyphs, List.drop_zero] at texts
  have filled := Template.fillChars_eq_ok_iff.2 ⟨placeholders, h, rfl⟩
  rw [Template.fill, filled, texts, ok_bind, flatMap_drawn_typesetGlyphs h]
  rfl

end Expr

theorem length_of_bind_eq_ok {table : Bindings} {options : Options} {tokens : List Token}
    {meanings : List Meaning} (h : bind table options tokens = .ok meanings) :
    meanings.length = tokens.length := by
  induction tokens generalizing meanings with
  | nil =>
    cases h
    rfl
  | cons t tokens ih =>
    rw [bind] at h
    split at h
    · cases h
    · obtain ⟨rest, hrest, h⟩ := bind_eq_ok_iff.1 h
      cases h
      rw [List.length_cons, List.length_cons, ih hrest]

namespace Expr

/-- The template of a formula is filled with the symbols of its tokens and with their values.  Each
time the outcome is the drawing of the expression with these texts. -/
theorem fill_typeset {formula : String} {table : Bindings} {options : Options}
    (hmul : ∀ c ∈ options.mulSymbol.toList, isPlaceholder c = false) {tokens : List Token}
    {e : Expr} (hread : OfFormula formula tokens e) {meanings : List Meaning}
    (hbind : bind table options tokens = .ok meanings) :
    Template.fill (e.typeset tokens options) tokens (meanings.map (·.symbol)) =
        .ok (e.draw tokens options (meanings.map (·.symbol))) ∧
      Template.fill (e.typeset tokens options) tokens (meanings.map (·.value)) =
        .ok (e.draw tokens options (meanings.map (·.value))) := by
  obtain ⟨s, _, hs⟩ := hread
  have order := tokenOrder_of_ofSkeleton hs
  have length := length_of_bind_eq_ok hbind
  exact ⟨fill_typeset_of_tokenOrder hmul order (by rw [List.length_map, length]),
    fill_typeset_of_tokenOrder hmul order (by rw [List.length_map, length])⟩

/-- A symbol that looks like a placeholder in brackets is drawn as it is, in the brackets of the
formula. -/
theorem fill_typeset_bound_symbol :
    let tokens : List Token := [⟨"2", 0, 0, .ordinary⟩, ⟨"x", 1, 3, .ordinary⟩]
    let e := binary .mul (operand 0) (group (operand 1))
    Template.fill (e.typeset tokens .standard) tokens ["2", "(■)"] =
      .ok "2 \\cdot \\left((■)\\right)" := by
  intro tokens e
  have drawn : e.draw tokens .standard ["2", "(■)"] = "2 \\cdot \\left((■)\\right)" := by
    decide +kernel
  rw [← drawn]
  exact (fill_typeset (forall_not_isPlaceholder rfl)
    ⟨⟨[⟨'□', 0⟩, ⟨'*', 1⟩, ⟨'(', 2⟩, ⟨'□', 3⟩, ⟨')', 4⟩], 5⟩,
      (by rfl : Skeleton.ofFormula "2*(x)" = _), by rfl⟩
    (by rfl : bind [("x", ⟨0x3ff0000000000000, "(■)", ""⟩)] .standard _ =
      .ok [⟨"2", "2", .number (.exact 2)⟩,
        ⟨"(■)", "1", .number (.real (.ofBits 0x3ff0000000000000))⟩])).1

end Expr

end Formulary
