import Formulary.Compile
import Formulary.Proofs.Expr.Clear

/-! # Compilation

Once a formula has been read and its tokens have a meaning, compiling it can fail only in the
arithmetic: the outcome is that of the evaluation, if its value fits a float.
-/

namespace Formulary

/-- What remains to be done when a formula has been read and its tokens have meanings: it is
evaluated, and its template is filled. -/
def Compiled.ofMeanings (s : Skeleton) (tokens : List Token) (e : Expr) (options : Options)
    (meanings : List Meaning) : Except Error Compiled := do
  let template := e.typeset tokens options
  let value ← e.evaluate tokens (meanings.map (·.term))
  let withSymbols ← Template.fill template tokens (meanings.map (·.symbol))
  let withValues ← Template.fill template tokens (meanings.map (·.value))
  if value.toFloat.isFinite then
    return ⟨value.toFloat, value, withSymbols, withValues, Token.joinTexts tokens, s.text, template⟩
  else throw (.arithmetic .outsideRange)

/-- The stages of a compilation. -/
theorem compile_eq (formula : String) (table : Bindings) (options : Options) :
    compile formula table options =
      Skeleton.ofFormula formula >>= fun (s, tokens) =>
        Expr.ofSkeleton s tokens >>= fun e =>
          bind table options tokens >>= Compiled.ofMeanings s tokens e options := rfl

/-- A formula that is read by `s`, `tokens` and `e` is compiled from the meanings of its tokens. -/
theorem compile_eq_ofMeanings {formula : String} {table : Bindings} {options : Options}
    {s : Skeleton} {tokens : List Token} (hs : Skeleton.ofFormula formula = .ok (s, tokens))
    {e : Expr} (he : Expr.ofSkeleton s tokens = .ok e) :
    compile formula table options =
      bind table options tokens >>= Compiled.ofMeanings s tokens e options := by
  rw [compile_eq, hs]
  simp only [ok_bind, he]

/-- A formula that was compiled has been read, its names have meanings, and it has its value. -/
theorem exists_of_compile {formula : String} {table : Bindings} {options : Options} {c : Compiled}
    (h : compile formula table options = .ok c) :
    ∃ s tokens e meanings, Skeleton.ofFormula formula = .ok (s, tokens) ∧
      Expr.ofSkeleton s tokens = .ok e ∧ bind table options tokens = .ok meanings ∧
      e.evaluate tokens (meanings.map (·.term)) = .ok c.value := by
  rw [compile_eq, bind_eq_ok_iff] at h
  obtain ⟨⟨s, tokens⟩, hs, h⟩ := h
  obtain ⟨e, he, h⟩ := bind_eq_ok_iff.1 h
  obtain ⟨meanings, hm, h⟩ := bind_eq_ok_iff.1 h
  obtain ⟨value, hvalue, h⟩ := bind_eq_ok_iff.1 h
  obtain ⟨_, -, h⟩ := bind_eq_ok_iff.1 h
  obtain ⟨_, -, h⟩ := bind_eq_ok_iff.1 h
  refine ⟨s, tokens, e, meanings, hs, he, hm, ?_⟩
  split at h
  · cases h
    exact hvalue
  · cases h

/-- What is kept of a value and its drawings, or the failure if the value does not fit a float. -/
def Compiled.ofValue (s : Skeleton) (tokens : List Token) (e : Expr) (options : Options)
    (meanings : List Meaning) (value : Number) : Except Error Compiled :=
  if value.toFloat.isFinite then
    .ok ⟨value.toFloat, value, e.draw tokens options (meanings.map (·.symbol)),
      e.draw tokens options (meanings.map (·.value)), Token.joinTexts tokens, s.text,
      e.typeset tokens options⟩
  else .error (.arithmetic .outsideRange)

theorem Compiled.map_value_ofValue (s : Skeleton) (tokens : List Token) (e : Expr)
    (options : Options) (meanings : List Meaning) (value : Number) :
    (ofValue s tokens e options meanings value).map (·.value) =
      if value.toFloat.isFinite then .ok value else .error (.arithmetic .outsideRange) := by
  rw [ofValue]
  split <;> rfl

theorem Compiled.ofMeanings_eq_of_clear {s : Skeleton} {tokens : List Token} {e : Expr}
    {options : Options} {meanings : List Meaning} (hclear : e.Clear options)
    (horder : e.tokenOrder = List.range tokens.length) (hlength : meanings.length = tokens.length) :
    ofMeanings s tokens e options meanings =
      e.evaluate tokens (meanings.map (·.term)) >>= ofValue s tokens e options meanings := by
  have symbols : Template.fill (e.typeset tokens options) tokens (meanings.map (·.symbol)) = _ :=
    Expr.fill_typeset_of_clear hclear horder (by rw [List.length_map, hlength])
  have values : Template.fill (e.typeset tokens options) tokens (meanings.map (·.value)) = _ :=
    Expr.fill_typeset_of_clear hclear horder (by rw [List.length_map, hlength])
  simp only [ofMeanings, symbols, values, ok_bind]
  rfl

theorem compile_eq_bind {formula : String} {table : Bindings} {options : Options}
    (hmul : ∀ c ∈ options.mulSymbol.toList, isPlaceholder c = false) {s : Skeleton}
    {tokens : List Token} (hs : Skeleton.ofFormula formula = .ok (s, tokens)) {e : Expr}
    (he : Expr.ofSkeleton s tokens = .ok e) {meanings : List Meaning}
    (hm : bind table options tokens = .ok meanings) :
    compile formula table options =
      e.evaluate tokens (meanings.map (·.term)) >>=
        Compiled.ofValue s tokens e options meanings := by
  rw [compile_eq_ofMeanings hs he, hm, ok_bind]
  exact Compiled.ofMeanings_eq_of_clear (.inl hmul) (Expr.tokenOrder_of_ofSkeleton he)
    (length_of_bind_eq_ok hm)

end Formulary
