import Formulary.Proofs.Compile
import Formulary.Proofs.Expr.Faults

/-! # Compiling with other options

Options say how a formula is drawn, and what is computed does not depend on them, with one
exception: a sign of multiplication that holds a placeholder fits into no template, so such options
are harmful to the formulas with a multiplication that get as far as to be drawn.
-/

namespace Formulary

/-! ## Meanings -/

/-- Only the shown values of tokens depend on the options. -/
theorem bind_options (table : Bindings) (options options' : Options) (tokens : List Token) :
    Alike Eq (fun ms ms' : List Meaning =>
        ms.map (·.symbol) = ms'.map (·.symbol) ∧ ms.map (·.term) = ms'.map (·.term))
      (bind table options tokens) (bind table options' tokens) := by
  induction tokens with
  | nil => exact .ok ⟨rfl, rfl⟩
  | cons t tokens ih =>
    rw [bind, bind]
    cases Source.ofName? table t.text with
    | none => exact .error rfl
    | some source =>
      refine ih.bind fun ms ms' _ _ same => .ok ?_
      obtain ⟨hsymbols, hterms⟩ := same
      simp only [List.map_cons, hsymbols, hterms]
      cases source <;> exact ⟨rfl, rfl⟩

/-! ## The parts of a compiled formula -/

namespace Compiled

/-- What is computed: the value, as a float and as a number, and what was read. -/
def computation (c : Compiled) : Float × Number × String × String :=
  (c.result, c.value, c.tokenTexts, c.skeleton)

/-- A compiled formula without the values drawn in it. -/
def withoutValues (c : Compiled) : Compiled :=
  { c with texWithValues := "" }

variable {s : Skeleton} {tokens : List Token} {e : Expr} {options options' : Options}
  {meanings meanings' : List Meaning}

theorem alike_ofMeanings_of_mulSymbol (h : options.mulSymbol = options'.mulSymbol)
    (hsymbols : meanings.map (·.symbol) = meanings'.map (·.symbol))
    (hterms : meanings.map (·.term) = meanings'.map (·.term)) :
    Alike Eq (fun c c' => c.withoutValues = c'.withoutValues)
      (ofMeanings s tokens e options meanings) (ofMeanings s tokens e options' meanings') := by
  have length : (meanings.map (·.value)).length = (meanings'.map (·.value)).length := by
    simpa using congrArg List.length hterms
  simp only [ofMeanings, hsymbols, hterms, Expr.typeset_options (.inl h)]
  refine Alike.bind_same fun value _ => Alike.bind_same fun withSymbols _ => ?_
  refine (Template.alike_fill length).bind fun _ _ _ _ _ => ?_
  split
  · exact .ok rfl
  · exact .error rfl

theorem alike_ofMeanings_of_clear (hclear : e.Clear options) (hclear' : e.Clear options')
    (horder : e.tokenOrder = List.range tokens.length)
    (hlength : meanings.length = tokens.length)
    (hterms : meanings.map (·.term) = meanings'.map (·.term)) :
    Alike Eq (fun c c' => c.computation = c'.computation)
      (ofMeanings s tokens e options meanings) (ofMeanings s tokens e options' meanings') := by
  have hlength' : meanings'.length = tokens.length := by
    rw [← hlength]
    simpa using congrArg List.length hterms.symm
  rw [ofMeanings_eq_of_clear hclear horder hlength,
    ofMeanings_eq_of_clear hclear' horder hlength', hterms]
  refine Alike.bind_same fun value _ => ?_
  rw [ofValue, ofValue]
  split
  · exact .ok rfl
  · exact .error rfl

/-- A sign of multiplication with a placeholder is reported as a defect of the formula. -/
theorem ofMeanings_of_not_clear (hclear : ¬e.Clear options)
    (horder : e.tokenOrder = List.range tokens.length) {value : Number}
    (hvalue : e.evaluate tokens (meanings.map (·.term)) = .ok value) :
    ∃ p d, ofMeanings s tokens e options meanings = .error (.malformed p d) := by
  cases hfill : Template.fill (e.typeset tokens options) tokens (meanings.map (·.symbol)) with
  | ok drawn => exact absurd (Expr.clear_of_fill_typeset horder hfill) hclear
  | error err =>
    obtain ⟨p, -, d, rfl⟩ := Template.failsOnly_fill _ _ _ _ hfill
    refine ⟨p, d, ?_⟩
    simp only [ofMeanings, hvalue, hfill, ok_bind, error_bind]

end Compiled

/-! ## Compiling -/

/-- Does the sign of multiplication do no harm to the formula: if the formula is read and has a
value, is no sign drawn in it that looks like a placeholder? -/
def Options.Harmless (formula : String) (table : Bindings) (options : Options) : Prop :=
  ∀ tokens e meanings value, Expr.OfFormula formula tokens e →
    bind table options tokens = .ok meanings →
      e.evaluate tokens (meanings.map (·.term)) = .ok value → e.Clear options

theorem Options.harmless_of_forall {options : Options}
    (h : ∀ c ∈ options.mulSymbol.toList, isPlaceholder c = false) (formula : String)
    (table : Bindings) : options.Harmless formula table :=
  fun _ _ _ _ _ _ _ => .inl h

theorem alike_compile_of_mulSymbol {options options' : Options}
    (h : options.mulSymbol = options'.mulSymbol) (formula : String) (table : Bindings) :
    Alike Eq (fun c c' => c.withoutValues = c'.withoutValues) (compile formula table options)
      (compile formula table options') := by
  rw [compile_eq, compile_eq]
  refine Alike.bind_same fun p _ => Alike.bind_same fun e _ => ?_
  exact (bind_options table options options' p.2).bind fun _ _ _ _ same =>
    Compiled.alike_ofMeanings_of_mulSymbol h same.1 same.2

theorem alike_compile_of_harmless {formula : String} {table : Bindings} {options options' : Options}
    (h : options.Harmless formula table) (h' : options'.Harmless formula table) :
    Alike Eq (fun c c' => c.computation = c'.computation) (compile formula table options)
      (compile formula table options') := by
  rw [compile_eq, compile_eq]
  refine Alike.bind_same fun p hs => Alike.bind_same fun e he => ?_
  refine (bind_options table options options' p.2).bind fun meanings meanings' hm hm' same => ?_
  have read : Expr.OfFormula formula p.2 e := ⟨p.1, hs, he⟩
  have length := length_of_bind_eq_ok hm
  cases hvalue : e.evaluate p.2 (meanings.map (·.term)) with
  | error err =>
    have hvalue' := hvalue
    rw [same.2] at hvalue'
    simp only [Compiled.ofMeanings, hvalue, hvalue', error_bind]
    exact .error rfl
  | ok value =>
    exact Compiled.alike_ofMeanings_of_clear (h _ _ _ _ read hm hvalue)
      (h' _ _ _ _ read hm' (same.2 ▸ hvalue)) (Expr.tokenOrder_of_ofSkeleton he) length same.2

theorem harmless_of_alike_compile {formula : String} {table : Bindings} {options options' : Options}
    (h' : options'.Harmless formula table)
    (h : Alike Eq (fun c c' => c.computation = c'.computation) (compile formula table options)
      (compile formula table options')) :
    options.Harmless formula table := by
  rintro tokens e meanings value ⟨s, hs, he⟩ hm hvalue
  refine Classical.byContradiction fun hclear => ?_
  have order := Expr.tokenOrder_of_ofSkeleton he
  obtain ⟨p, d, hdefect⟩ := Compiled.ofMeanings_of_not_clear (s := s) hclear order hvalue
  have bound := bind_options table options options' tokens
  rw [hm] at bound
  obtain ⟨meanings', hm', -, hterms⟩ := bound.exists_of_ok
  rw [hterms] at hvalue
  have clear' := h' _ _ _ _ ⟨s, hs, he⟩ hm' hvalue
  rw [compile_eq_ofMeanings hs he, compile_eq_ofMeanings hs he, hm, hm', ok_bind, ok_bind, hdefect,
    Compiled.ofMeanings_eq_of_clear clear' order (length_of_bind_eq_ok hm'), hvalue, ok_bind] at h
  obtain ⟨err, herr, rfl⟩ := h.exists_of_error
  rw [Compiled.ofValue] at herr
  split at herr <;> cases herr

/-- Options do not affect what is computed, and with the same sign of multiplication only the shown
values differ.  The exception are signs of multiplication that do harm to the formula, and under
these it is compiled to something else. -/
theorem compile_options (formula : String) (table : Bindings) (options options' : Options) :
    (options.mulSymbol = options'.mulSymbol →
      Alike Eq (fun c c' => c.withoutValues = c'.withoutValues) (compile formula table options)
        (compile formula table options')) ∧
    (options'.Harmless formula table →
      (Alike Eq (fun c c' => c.computation = c'.computation) (compile formula table options)
        (compile formula table options') ↔ options.Harmless formula table)) :=
  ⟨fun h => alike_compile_of_mulSymbol h formula table,
    fun h' => ⟨harmless_of_alike_compile h', fun h => alike_compile_of_harmless h h'⟩⟩

theorem compile_options_product :
    Alike Eq (fun c c' => c.computation = c'.computation)
        (compile "2*x" [("x", ⟨0x3ff8000000000000, "x_0", "m"⟩)] ⟨"\\times", some 3, "\\qty"⟩)
        (compile "2*x" [("x", ⟨0x3ff8000000000000, "x_0", "m"⟩)] .standard) ∧
      Alike Eq (fun c c' => c.withoutValues = c'.withoutValues)
        (compile "2*x" [("x", ⟨0x3ff8000000000000, "x_0", "m"⟩)] ⟨"\\cdot", some 3, "\\qty"⟩)
        (compile "2*x" [("x", ⟨0x3ff8000000000000, "x_0", "m"⟩)] .standard) := by
  constructor
  · refine ((compile_options "2*x" _ _ .standard).2 ?_).2 ?_
    · exact Options.harmless_of_forall (forall_not_isPlaceholder rfl) _ _
    · exact Options.harmless_of_forall (forall_not_isPlaceholder rfl) _ _
  · exact (compile_options "2*x" _ _ .standard).1 rfl

/-- A formula that has a value is refused if the sign of multiplication is a placeholder. -/
theorem compile_placeholder_as_sign :
    compile "2*3" [] ⟨"□", none, "\\SI"⟩ = .error (.malformed 0 .surplusPlaceholder) ∧
      (compile "2*3" [] .standard).toOption.map (·.computation) =
        some (6, .exact 6, "2 3", "□*□") ∧
      ¬Alike Eq (fun c c' => c.computation = c'.computation)
        (compile "2*3" [] ⟨"□", none, "\\SI"⟩) (compile "2*3" [] .standard) := by
  have refused : compile "2*3" [] ⟨"□", none, "\\SI"⟩ =
      .error (.malformed 0 .surplusPlaceholder) := by
    rfl
  have computed : (compile "2*3" [] .standard).toOption.map (·.computation) =
      some (6, .exact 6, "2 3", "□*□") := by
    decide +kernel
  refine ⟨refused, computed, fun h => ?_⟩
  rw [refused] at h
  obtain ⟨err, herr, -⟩ := h.exists_of_error
  rw [herr] at computed
  cases computed

end Formulary
