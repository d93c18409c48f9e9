import Formulary.Proofs.Expr.Draw
import Formulary.Proofs.Expr.Readback

/-! # Faithful templates

Formulas with the same template are the same up to brackets that are not drawn, so they have the
same value.
-/

namespace Formulary

open Glyph (plain)

/-! ## Brackets that grow -/

/-- A character is drawn with itself at the end. -/
theorem reverse_sizeBracket (c : Char) :
    (Expr.sizeBracket c).reverse = c :: (Expr.sizeBracket c).reverse.tail := by
  by_cases ho : c = '('
  · subst ho
    rfl
  · by_cases hc : c = ')'
    · subst hc
      rfl
    · rw [Expr.sizeBracket, if_neg ho, if_neg hc]
      rfl

theorem flatMap_sizeBracket_injective {xs ys : List Char}
    (h : xs.flatMap Expr.sizeBracket = ys.flatMap Expr.sizeBracket) : xs = ys := by
  have code : ∀ (tail : Char → List Char) (xs ys : List Char),
      (xs.flatMap fun c => c :: tail c) = (ys.flatMap fun c => c :: tail c) → xs = ys := by
    intro tail xs
    induction xs with
    | nil =>
      rintro (_ | ⟨y, ys⟩) h
      · rfl
      · cases h
    | cons x xs ih =>
      rintro (_ | ⟨y, ys⟩) h
      · cases h
      · obtain ⟨rfl, h⟩ := List.cons.inj h
        rw [ih ys (List.append_cancel_left h)]
  have back := congrArg List.reverse h
  rw [List.reverse_flatMap, List.reverse_flatMap] at back
  have ends : List.reverse ∘ Expr.sizeBracket =
      fun c => c :: (Expr.sizeBracket c).reverse.tail := funext reverse_sizeBracket
  rw [ends] at back
  exact List.reverse_inj.1 (code _ _ _ back)

/-! ## Templates in one hand -/

namespace Expr

/-- A drawing depends on the tokens of the tree only. -/
theorem write_congr {α : Type} {ink : Char → List α} {place place' : Nat → List α}
    {style : Nat → CallStyle} {options : Options} {bare : Bool} {e : Expr}
    (h : ∀ i ∈ e.tokenOrder, place i = place' i) :
    write ink place style options bare e = write ink place' style options bare e := by
  have parts : ∀ place : Nat → List α, write ink place style options bare e =
      (write (fun c => [Sum.inl c]) (fun i => [Sum.inr i]) style options bare e).flatMap
        (Sum.elim ink place) := by
    intro place
    rw [flatMap_write]
    simp
  have tokens : e.tokenOrder =
      (write (fun c => [Sum.inl c]) (fun i => [Sum.inr i]) style options bare e).flatMap
        (Sum.elim (fun _ => []) fun i => [i]) := by
    rw [flatMap_write]
    simp [write_tokens]
  rw [parts, parts, List.flatMap_def, List.flatMap_def]
  congr 1
  refine List.map_congr_left ?_
  rintro (c | i) hx
  · rfl
  · refine h i ?_
    rw [tokens]
    exact List.mem_flatMap.2 ⟨_, hx, by simp⟩

end Expr

/-- The hand that draws placeholders for the tokens. -/
def Hand.ofTokens (tokens : List Token) : Hand :=
  ⟨fun i => (tokens[i]?.map Token.placeholder).getD '□', Token.styleAt tokens⟩

namespace Hand

theorem map_char_draw (h : Hand) (e : Expr) :
    (h.draw e).map Glyph.char =
      e.write (fun c => [c]) (fun i => [h.place i]) h.style .standard false := by
  rw [draw, List.map_eq_flatMap, Expr.flatMap_write]
  simp [token]

theorem filterMap_token_draw (h : Hand) (e : Expr) :
    (h.draw e).filterMap Glyph.token = e.tokenOrder := by
  rw [List.filterMap_eq_flatMap_toList, draw, Expr.flatMap_write]
  exact Expr.write_tokens false e

theorem marked_draw {h : Hand} (hp : ∀ i, isPlaceholder (h.place i) = true) (e : Expr) :
    Glyph.Marked (h.draw e) := by
  refine Expr.forall_mem_write ?_ ?_ (forall_not_isPlaceholder rfl) false e
  · rintro c hc g hg
    rw [List.mem_singleton.1 hg]
    exact hc.symm
  · rintro i g hg
    rw [List.mem_singleton.1 hg]
    exact (hp i).symm

theorem isPlaceholder_ofTokens (tokens : List Token) (i : Nat) :
    isPlaceholder ((ofTokens tokens).place i) = true := by
  show isPlaceholder ((tokens[i]?.map Token.placeholder).getD '□') = true
  cases tokens[i]? with
  | none => rfl
  | some t => exact t.isPlaceholder_placeholder

end Hand

namespace Expr

theorem render_eq_draw {tokens : List Token} {e : Expr}
    (h : e.tokenOrder = List.range tokens.length) :
    render tokens .standard false e = ((Hand.ofTokens tokens).draw e).map Glyph.char := by
  rw [render_eq_write, Hand.map_char_draw]
  refine write_congr fun i hi => ?_
  have : i < tokens.length := List.mem_range.1 (h ▸ hi)
  simp [Token.placeholderAt, Hand.ofTokens, this]

/-- Formulas with the same template differ in brackets only that are not drawn: one pair around a
numerator, a denominator, an exponent or an argument.  So they have the same value. -/
theorem typeset_faithful {formula₁ formula₂ : String} {tokens₁ tokens₂ : List Token}
    {e₁ e₂ : Expr} (h₁ : OfFormula formula₁ tokens₁ e₁) (h₂ : OfFormula formula₂ tokens₂ e₂)
    (h : e₁.typeset tokens₁ .standard = e₂.typeset tokens₂ .standard) :
    e₁.trim = e₂.trim ∧
      ∀ tokens terms, e₁.evaluate tokens terms = e₂.evaluate tokens terms := by
  obtain ⟨s₁, -, hs₁⟩ := h₁
  obtain ⟨s₂, -, hs₂⟩ := h₂
  have order₁ := tokenOrder_of_ofSkeleton hs₁
  have order₂ := tokenOrder_of_ofSkeleton hs₂
  have chars := flatMap_sizeBracket_injective (String.ofList_injective h)
  rw [render_eq_draw order₁, render_eq_draw order₂] at chars
  have glyphs : (Hand.ofTokens tokens₁).draw e₁ = (Hand.ofTokens tokens₂).draw e₂ := by
    have marked₁ := Hand.marked_draw (Hand.isPlaceholder_ofTokens tokens₁) e₁
    have marked₂ := Hand.marked_draw (Hand.isPlaceholder_ofTokens tokens₂) e₂
    refine marked₁.ext marked₂ chars ?_
    have length := congrArg (List.countP isPlaceholder) chars
    rw [marked₁.countP_chars, marked₂.countP_chars] at length
    simp only [Hand.filterMap_token_draw, order₁, order₂, List.length_range] at length ⊢
    rw [length]
  have trims := trim_eq_of_draw_eq (derives_of_ofSkeleton hs₁).2.2.wellFormed
    (derives_of_ofSkeleton hs₂).2.2.wellFormed glyphs
  refine ⟨trims, fun tokens terms => ?_⟩
  rw [← evaluate_trim, trims, evaluate_trim]

theorem typeset_faithful_denominator :
    let plain := binary .div (operand 0) (operand 1)
    let bracketed := binary .div (operand 0) (group (operand 1))
    plain.trim = bracketed.trim ∧
      ∀ tokens terms, plain.evaluate tokens terms = bracketed.evaluate tokens terms :=
  typeset_faithful
    ⟨⟨[⟨'□', 0⟩, ⟨'/', 1⟩, ⟨'□', 2⟩], 3⟩, (by rfl : Skeleton.ofFormula "1/x" = .ok (_,
      [⟨"1", 0, 0, .ordinary⟩, ⟨"x", 1, 2, .ordinary⟩])), by rfl⟩
    ⟨⟨[⟨'□', 0⟩, ⟨'/', 1⟩, ⟨'(', 2⟩, ⟨'□', 3⟩, ⟨')', 4⟩], 5⟩,
      (by rfl : Skeleton.ofFormula "1/(x)" = .ok (_,
        [⟨"1", 0, 0, .ordinary⟩, ⟨"x", 1, 3, .ordinary⟩])), by rfl⟩
    (by rfl)

end Expr

end Formulary
