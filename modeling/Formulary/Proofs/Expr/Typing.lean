import Formulary.Proofs.Expr.Faults

/-! # Well-typed expressions

A token is a number or a function.  An expression is well typed if its operands are numbers and its
callees are functions that take as many arguments as they are given.  A well-typed expression has a
value or fails in the arithmetic; any other one has no value, wherever in it the defect is.
-/

namespace Formulary

open Error (IsFault isFault_arithmetic)

namespace Expr

/-- Is every operand a number and every callee a function that takes its arguments? -/
inductive WellTyped (terms : List Term) : Expr → Prop where
  | operand {i : Nat} {x : Number} : terms[i]? = some (.number x) → WellTyped terms (operand i)
  | group {x : Expr} : WellTyped terms x → WellTyped terms (group x)
  | unary {s : Sign} {x : Expr} : WellTyped terms x → WellTyped terms (unary s x)
  | binary {op : BinOp} {a b : Expr} :
    WellTyped terms a → WellTyped terms b → WellTyped terms (binary op a b)
  | call {f : Nat} {args : List Expr} {g : Function} {unit : AngleUnit} :
    terms[f]? = some (.function g unit) → g.accepts args.length = true →
      (∀ a ∈ args, WellTyped terms a) → WellTyped terms (call f args)

variable {tokens : List Token} {terms : List Term}

theorem operandValue_of_number {i : Nat} {x : Number} (h : terms[i]? = some (.number x)) :
    operandValue tokens terms i = .ok x := by
  rw [operandValue, h]

theorem operandValue_eq_ok_iff {i : Nat} {x : Number} :
    operandValue tokens terms i = .ok x ↔ terms[i]? = some (.number x) := by
  refine ⟨fun h => ?_, operandValue_of_number⟩
  unfold operandValue at h
  split at h
  · next y hy =>
    cases h
    exact hy
  · cases h
  · cases h

theorem calleeFunction_eq_ok_iff {f count : Nat} {g : Function} {unit : AngleUnit} :
    calleeFunction tokens terms f count = .ok (g, unit) ↔
      terms[f]? = some (.function g unit) ∧ g.accepts count = true := by
  unfold calleeFunction
  split
  · next g' unit' h =>
    by_cases hcount : g'.accepts count = true
    · rw [if_pos hcount, h]
      grind
    · rw [if_neg hcount, h]
      grind
  · next h =>
    refine iff_of_false (by simp) ?_
    rintro ⟨hterm, -⟩
    exact h g unit hterm

/-- A well-typed expression fails in the arithmetic only. -/
theorem WellTyped.failsOnly {e : Expr} (h : e.WellTyped terms) :
    FailsOnly IsFault (e.evaluate tokens terms) := by
  induction h with
  | operand hi =>
    rw [evaluate, operandValue_of_number hi]
    exact failsOnly_ok _ _
  | group _ ih => exact ih
  | unary _ ih => exact ih.bind fun _ _ => failsOnly_ok _ _
  | @binary op a b _ _ iha ihb =>
    exact iha.bind fun x _ => ihb.bind fun y _ => Number.failsOnly_binary op x y
  | call hf hcount _ ih =>
    rw [evaluate, calleeFunction_eq_ok_iff.2 ⟨hf, hcount⟩, ok_bind]
    exact (failsOnly_evaluateAll tokens terms ih).bind fun values _ =>
      Function.failsOnly_apply _ _ values

/-- Arguments have values only if each of them has one. -/
theorem exists_of_evaluateAll {args : List Expr} {xs : List Number}
    (h : evaluateAll tokens terms args = .ok xs) :
    ∀ a ∈ args, ∃ x, a.evaluate tokens terms = .ok x := by
  induction args generalizing xs with
  | nil => simp
  | cons a args ih =>
    obtain ⟨x, hx, h⟩ := bind_eq_ok_iff.1 h
    obtain ⟨rest, hrest, -⟩ := bind_eq_ok_iff.1 h
    exact List.forall_mem_cons.2 ⟨⟨x, hx⟩, ih hrest⟩

/-- Only well-typed expressions have values: every part is evaluated, also those whose value is not
used. -/
theorem wellTyped_of_evaluate {e : Expr} {x : Number} (h : e.evaluate tokens terms = .ok x) :
    e.WellTyped terms := by
  induction e generalizing x with
  | operand i => exact .operand (operandValue_eq_ok_iff.1 h)
  | group y ih => exact .group (ih h)
  | unary s y ih =>
    obtain ⟨v, hv, -⟩ := bind_eq_ok_iff.1 h
    exact .unary (ih hv)
  | binary op a b iha ihb =>
    obtain ⟨v, hv, h⟩ := bind_eq_ok_iff.1 h
    obtain ⟨w, hw, -⟩ := bind_eq_ok_iff.1 h
    exact .binary (iha hv) (ihb hw)
  | call f args ih =>
    obtain ⟨⟨g, unit⟩, hg, h⟩ := bind_eq_ok_iff.1 h
    obtain ⟨xs, hxs, -⟩ := bind_eq_ok_iff.1 h
    obtain ⟨hf, hcount⟩ := calleeFunction_eq_ok_iff.1 hg
    refine .call hf hcount fun a ha => ?_
    obtain ⟨v, hv⟩ := exists_of_evaluateAll hxs a ha
    exact ih a ha hv

/-- Typing is sound: a well-typed expression has a value or fails in the arithmetic, and an
expression that is not well typed has no value. -/
theorem evaluate_typed (tokens : List Token) (terms : List Term) (e : Expr) :
    (e.WellTyped terms → (∃ x, e.evaluate tokens terms = .ok x) ∨
      ∃ fault, e.evaluate tokens terms = .error (.arithmetic fault)) ∧
    (¬e.WellTyped terms → ∀ x, e.evaluate tokens terms ≠ .ok x) := by
  constructor
  · intro h
    cases hvalue : e.evaluate tokens terms with
    | ok x => exact .inl ⟨x, rfl⟩
    | error err =>
      obtain ⟨fault, rfl⟩ := h.failsOnly err hvalue
      exact .inr ⟨fault, rfl⟩
  · intro h x hx
    exact h (wellTyped_of_evaluate hx)

/-- With `min` as the token `0` and a number as the token `1`, a call of `min` on the number is well
typed, and one with `min` itself as a further argument is not. -/
theorem evaluate_typed_min :
    let terms : List Term := [.function .min .radian, .number (.exact 2)]
    let typed : Expr := .call 0 [.operand 1, .unary .minus (.operand 1)]
    let untyped : Expr := .call 0 [.operand 1, .operand 0]
    (typed.WellTyped terms ∧ ((∃ x, typed.evaluate [] terms = .ok x) ∨
        ∃ fault, typed.evaluate [] terms = .error (.arithmetic fault))) ∧
      ¬untyped.WellTyped terms ∧ ∀ x, untyped.evaluate [] terms ≠ .ok x := by
  intro terms typed untyped
  have htyped : typed.WellTyped terms := by
    refine .call rfl rfl (List.forall_mem_cons.2 ⟨.operand rfl, List.forall_mem_cons.2 ⟨?_, ?_⟩⟩)
    · exact .unary (.operand rfl)
    · simp
  have huntyped : ¬WellTyped terms (.call 0 [.operand 1, .operand 0]) := by
    intro h
    cases h with
    | call _ _ hargs =>
      cases hargs (.operand 0) (by simp) with
      | operand h => cases h
  exact ⟨⟨htyped, (evaluate_typed [] terms typed).1 htyped⟩, huntyped,
    (evaluate_typed [] terms untyped).2 huntyped⟩

end Expr

end Formulary
