import Formulary.Proofs.Arith.Text
import Formulary.Proofs.Compile
import Formulary.Proofs.Number.Exact
import Formulary.Proofs.Number.Literal

/-! # What arithmetic compiles to

A text of arithmetic compiles to the exact value of its tree.  It fails in the arithmetic if a
divisor is zero or the value does not fit a float.  How the text is laid out does not matter.
-/

namespace Formulary

/-! ## Numerals -/

theorem Literal.read?_digits {ds : List Char} (hne : ds ≠ [])
    (h : ∀ c ∈ ds, c.isDigit = true) :
    Literal.read? ds = some ((Decimal.value ds : Nat) : Rat) := by
  have valid : Literal.Digits (ds ++ (none : Option (List Char)).getD []) := by
    rw [Option.getD_none, List.append_nil]
    exact ⟨hne, h⟩
  have := Literal.Parts.read?_text ⟨ds, none, none, valid⟩
  simpa [Literal.Parts.text, Literal.Parts.mantissa, Literal.Parts.reading,
    Literal.Parts.significand, Literal.Parts.places, Literal.Parts.shift] using this

namespace Numeral

variable (n : Numeral)

/-- A numeral means itself, whatever the variables. -/
def meaning : Meaning :=
  ⟨String.ofList n.digits, String.ofList n.digits, .number (.exact n.value)⟩

theorem bind_numerals {table : Bindings} {options : Options} {tokens : List Token}
    {ns : List Numeral} (h : tokens.map (·.text) = ns.map fun n => String.ofList n.digits) :
    bind table options tokens = .ok (ns.map meaning) := by
  induction tokens generalizing ns with
  | nil =>
    obtain rfl : ns = [] := List.map_eq_nil_iff.1 h.symm
    rfl
  | cons t tokens ih =>
    obtain ⟨n, ns, rfl, hn, hns⟩ := List.map_eq_cons_iff.1 h.symm
    replace hn : t.text = String.ofList n.digits := hn.symm
    have source : Source.ofName? table t.text = some (.literal n.value) := by
      rw [Source.ofName?, hn, String.toList_ofList, Literal.read?_digits n.nonempty n.isDigit]
      rfl
    rw [bind, source]
    simp only [ih hns.symm, ok_bind, pure_eq_ok]
    rw [hn]
    rfl

end Numeral

/-! ## Values -/

namespace Arith

/-- What the tree evaluates to: its exact value, or the first failure from left to right. -/
def outcome : Arith → Except Error Number
  | numeral n => .ok (.exact n.value)
  | node op a b => do
    let x ← a.outcome
    let y ← b.outcome
    Number.binary op.binOp x y

theorem binary_exact (op : ArithOp) (x y : Rat) :
    (∃ v, op.result? x y = some v ∧ Number.binary op.binOp (.exact x) (.exact y) = .ok (.exact v)) ∨
      op.result? x y = none ∧
        ∃ op', Number.binary op.binOp (.exact x) (.exact y) =
          .error (.arithmetic (.divisionByZero op')) := by
  have same : op.binOp.result? x y = op.result? x y := by cases op <;> rfl
  have noPower : op.binOp ≠ .pow := by cases op <;> decide
  have division : op.binOp.fault = .divisionByZero op.binOp := by cases op <;> rfl
  rw [← same]
  rcases Number.binary_exact (fun h => absurd h noPower) with h | ⟨hpole, h⟩
  · exact .inl h
  · rw [division] at h
    exact .inr ⟨hpole.result?_eq_none, op.binOp, h⟩

theorem outcome_spec (t : Arith) :
    (∃ v, t.value? = some v ∧ t.outcome = .ok (.exact v)) ∨
      t.value? = none ∧ ∃ op, t.outcome = .error (.arithmetic (.divisionByZero op)) := by
  induction t with
  | numeral n => exact .inl ⟨n.value, rfl, rfl⟩
  | node op a b iha ihb =>
    rw [value?, outcome]
    rcases iha with ⟨x, hx, ha⟩ | ⟨hx, op', ha⟩
    · rcases ihb with ⟨y, hy, hb⟩ | ⟨hy, op', hb⟩
      · rw [hx, hy, ha, hb]
        exact binary_exact op x y
      · rw [hx, hy, ha, hb]
        exact .inr ⟨rfl, op', rfl⟩
    · rw [hx, ha]
      exact .inr ⟨rfl, op', rfl⟩

end Arith

namespace Layout

theorem evaluate_grouped (tokens : List Token) (terms : List Term) (b : Bool) (e : Expr) :
    (grouped b e).evaluate tokens terms = e.evaluate tokens terms := by
  cases b with
  | false => rfl
  | true => rw [grouped, if_pos rfl, Expr.evaluate]

/-- Whatever its layout, a tree evaluates to its outcome. -/
theorem evaluate_expr (l : Layout) (tokens : List Token) {terms rest : List Term} {k : Nat}
    {t : Arith} (h : terms.drop k = t.numerals.map (·.meaning.term) ++ rest) :
    (l.expr k t).evaluate tokens terms = t.outcome := by
  induction t generalizing k rest with
  | numeral n =>
    have term : terms[k]? = some (.number (.exact n.value)) := by
      rw [← List.head?_drop, h]
      rfl
    rw [expr, Expr.evaluate, Expr.operandValue, term]
    rfl
  | node op a b iha ihb =>
    rw [Arith.numerals, List.map_append, List.append_assoc] at h
    have right : terms.drop (k + a.size) = b.numerals.map (·.meaning.term) ++ rest := by
      rw [← List.drop_drop, h, ← a.length_numerals]
      simp
    cases l with
    | full => rw [expr, Expr.evaluate, Expr.evaluate, iha h, ihb right, Arith.outcome]
    | minimal =>
      rw [expr, Expr.evaluate, evaluate_grouped, evaluate_grouped, iha h, ihb right, Arith.outcome]

/-- The text of a tree within the limits compiles as far as the arithmetic allows. -/
theorem exists_compile_text (l : Layout) {t : Arith} (h : l.WithinLimits t) (table : Bindings)
    {options : Options} (hmul : ∀ c ∈ options.mulSymbol.toList, isPlaceholder c = false) :
    ∃ s tokens e meanings, compile (String.ofList (l.text t)) table options =
      t.outcome >>= Compiled.ofValue s tokens e options meanings := by
  obtain ⟨s, tokens, hs, he, htexts⟩ := l.ofFormula_text h
  have hm : bind table options tokens = .ok (t.numerals.map Numeral.meaning) :=
    Numeral.bind_numerals htexts
  have terms : ((t.numerals.map Numeral.meaning).map (·.term)).drop 0 =
      t.numerals.map (·.meaning.term) ++ [] := by
    rw [List.drop_zero, List.map_map, List.append_nil]
    rfl
  refine ⟨s, tokens, l.expr 0 t, t.numerals.map Numeral.meaning, ?_⟩
  rw [compile_eq_bind hmul hs he hm, l.evaluate_expr tokens terms]

/-- A text of arithmetic compiles to the exact value of its tree.  It fails if the value does not
fit a float, and if a divisor is zero.  The two layouts do the same. -/
theorem compile_text (t : Arith) (table : Bindings) :
    (∀ l : Layout, l.WithinLimits t →
      ((∀ d ∈ t.divisors, d.value? ≠ some 0) → ∃ v, t.value? = some v ∧
        if (Number.exact v).toFloat.isFinite then
          ∃ c, compile (String.ofList (l.text t)) table .standard = .ok c ∧ c.value = .exact v
        else
          compile (String.ofList (l.text t)) table .standard =
            .error (.arithmetic .outsideRange)) ∧
      ((∃ d ∈ t.divisors, d.value? = some 0) →
        ∃ op, compile (String.ofList (l.text t)) table .standard =
          .error (.arithmetic (.divisionByZero op)))) ∧
    (full.WithinLimits t → minimal.WithinLimits t →
      (compile (String.ofList (full.text t)) table .standard).map (·.value) =
        (compile (String.ofList (minimal.text t)) table .standard).map (·.value)) := by
  have hmul : ∀ c ∈ Options.standard.mulSymbol.toList, isPlaceholder c = false :=
    forall_not_isPlaceholder rfl
  constructor
  · intro l h
    obtain ⟨s, tokens, e, meanings, hc⟩ := l.exists_compile_text h table hmul
    constructor
    · intro hd
      rcases t.outcome_spec with ⟨v, hv, ho⟩ | ⟨hv, -⟩
      · refine ⟨v, hv, ?_⟩
        rw [hc, ho, ok_bind, Compiled.ofValue]
        split
        · exact ⟨_, rfl, rfl⟩
        · rfl
      · obtain ⟨d, hd', hzero⟩ := t.value?_eq_none_iff.1 hv
        exact absurd hzero (hd d hd')
    · intro hd
      rcases t.outcome_spec with ⟨v, hv, -⟩ | ⟨-, op, ho⟩
      · rw [t.value?_eq_none_iff.2 hd] at hv
        cases hv
      · exact ⟨op, by rw [hc, ho]; rfl⟩
  · intro hfull hminimal
    obtain ⟨s, tokens, e, meanings, hc⟩ := full.exists_compile_text hfull table hmul
    obtain ⟨s', tokens', e', meanings', hc'⟩ := minimal.exists_compile_text hminimal table hmul
    rw [hc, hc']
    cases t.outcome with
    | error fault => rfl
    | ok v => rw [ok_bind, ok_bind, Compiled.map_value_ofValue, Compiled.map_value_ofValue]

/-- A sum compiles to its value, with brackets and spaces and without.  A division by a difference
that is zero fails. -/
theorem compile_text_sum :
    (∃ c, compile "(1 + 2)" [] .standard = .ok c ∧ c.value = .exact 3) ∧
      (compile "(1 + 2)" [] .standard).map (·.value) =
        (compile "1+2" [] .standard).map (·.value) ∧
      ∃ op, compile "1/(2-2)" [] .standard = .error (.arithmetic (.divisionByZero op)) := by
  let one : Arith := .numeral (.ofDigit '1' rfl)
  let two : Arith := .numeral (.ofDigit '2' rfl)
  have spaced : full.WithinLimits (.node .add one two) :=
    withinLimits_of_length_le (by decide) (by decide)
  have bare : minimal.WithinLimits (.node .add one two) :=
    withinLimits_of_length_le (by decide) (by decide)
  have quotient : minimal.WithinLimits (.node .div one (.node .sub two two)) :=
    withinLimits_of_length_le (by decide) (by decide)
  refine ⟨?_, (compile_text _ []).2 spaced bare,
    ((compile_text _ []).1 minimal quotient).2 ⟨.node .sub two two, ?_, ?_⟩⟩
  · obtain ⟨v, hv, h⟩ := ((compile_text _ []).1 full spaced).1 (fun d hd => by cases hd)
    have three : (Arith.node .add one two).value? = some 3 := by decide +kernel
    obtain rfl : 3 = v := Option.some.inj (three.symm.trans hv)
    have finite : (Number.exact 3).toFloat.isFinite = true := by decide +kernel
    rwa [if_pos finite] at h
  · exact List.mem_singleton_self _
  · decide +kernel

end Layout

end Formulary
