import Formulary.Proofs.Number.Exact
import Formulary.Proofs.Outcome
import Formulary.Expr.Evaluate

/-! # Exact evaluation

An expression of exact numbers, in which only `min`, `max` and `abs` are called, has the value that
it has over the rationals.  It has none exactly if it has a pole: a divisor that is zero, or a base
that is zero with a negative exponent.  What is asked of powers is asked of those that the
evaluation reaches.
-/

namespace Formulary

open Number (PowerLimits)

/-- The rational with a sign. -/
def Sign.result : Sign → Rat → Rat
  | plus, x => x
  | minus, x => -x

theorem Sign.apply_exact (s : Sign) (x : Rat) : s.apply (.exact x) = .exact (s.result x) := by
  cases s with
  | plus => rfl
  | minus => rfl

namespace Expr

/-- Is every operand an exact number, and every callee a function that keeps exact numbers exact and
takes its arguments? -/
inductive Exact (terms : List Term) : Expr → Prop where
  | operand {i : Nat} {x : Rat} : terms[i]? = some (.number (.exact x)) → Exact terms (operand i)
  | group {x : Expr} : Exact terms x → Exact terms (group x)
  | unary {s : Sign} {x : Expr} : Exact terms x → Exact terms (unary s x)
  | binary {op : BinOp} {a b : Expr} : Exact terms a → Exact terms b → Exact terms (binary op a b)
  | call {f : Nat} {args : List Expr} {g : Function} {unit : AngleUnit} :
    terms[f]? = some (.function g unit) → g.KeepsExact → g.accepts args.length = true →
      (∀ a ∈ args, Exact terms a) → Exact terms (call f args)

mutual

/-- The value over the rationals; brackets do not change it. -/
def value? (terms : List Term) : Expr → Option Rat
  | operand i =>
    match terms[i]? with
    | some (.number (.exact x)) => some x
    | _ => none
  | group x => value? terms x
  | unary s x => do
    let v ← value? terms x
    return s.result v
  | binary op a b => do
    let x ← value? terms a
    let y ← value? terms b
    op.result? x y
  | call f args =>
    match terms[f]? with
    | some (.function g _) => do
      let xs ← values? terms args
      g.result? xs
    | _ => none

def values? (terms : List Term) : List Expr → Option (List Rat)
  | [] => some []
  | e :: es => do
    let x ← value? terms e
    let xs ← values? terms es
    return x :: xs

end

mutual

/-- The bases and exponents of the powers that the evaluation meets; it stops at the first operation
that has no value. -/
def metPowers (terms : List Term) : Expr → List (Rat × Rat)
  | operand _ => []
  | group x => metPowers terms x
  | unary _ x => metPowers terms x
  | binary op a b =>
    match value? terms a, value? terms b with
    | none, _ => metPowers terms a
    | some _, none => metPowers terms a ++ metPowers terms b
    | some x, some y =>
      metPowers terms a ++ metPowers terms b ++ if op = .pow then [(x, y)] else []
  | call _ args => metPowersAll terms args

def metPowersAll (terms : List Term) : List Expr → List (Rat × Rat)
  | [] => []
  | e :: es =>
    match value? terms e with
    | none => metPowers terms e
    | some _ => metPowers terms e ++ metPowersAll terms es

end

/-- Is some divisor zero, or some base zero with a negative exponent? -/
inductive HasPole (terms : List Term) : Expr → Prop where
  | divisor {op : BinOp} {a b : Expr} :
    op.divides = true → b.value? terms = some 0 → HasPole terms (binary op a b)
  | base {a b : Expr} {y : Rat} :
    a.value? terms = some 0 → b.value? terms = some y → y < 0 → HasPole terms (binary .pow a b)
  | group {x : Expr} : HasPole terms x → HasPole terms (group x)
  | unary {s : Sign} {x : Expr} : HasPole terms x → HasPole terms (unary s x)
  | left {op : BinOp} {a b : Expr} : HasPole terms a → HasPole terms (binary op a b)
  | right {op : BinOp} {a b : Expr} : HasPole terms b → HasPole terms (binary op a b)
  | argument {f : Nat} {args : List Expr} {a : Expr} :
    a ∈ args → HasPole terms a → HasPole terms (call f args)

variable {tokens : List Token} {terms : List Term}

theorem HasPole.binary {op : BinOp} {a b : Expr} {x y : Rat} (hx : a.value? terms = some x)
    (hy : b.value? terms = some y) (h : op.Singular x y) : HasPole terms (binary op a b) := by
  rcases h with ⟨hop, rfl⟩ | ⟨rfl, rfl, hneg⟩
  · exact .divisor hop hy
  · exact .base hx hy hneg

theorem values?_eq_none {args : List Expr} {a : Expr} (ha : a ∈ args)
    (h : a.value? terms = none) : values? terms args = none := by
  induction args with
  | nil => cases ha
  | cons e es ih =>
    rw [values?]
    rcases List.mem_cons.1 ha with rfl | ha
    · rw [h]
      rfl
    · rw [ih ha]
      cases e.value? terms <;> rfl

theorem length_of_values? {args : List Expr} {xs : List Rat} (h : values? terms args = some xs) :
    xs.length = args.length := by
  induction args generalizing xs with
  | nil =>
    cases h
    rfl
  | cons e es ih =>
    obtain ⟨x, -, h⟩ := Option.bind_eq_some_iff.1 h
    obtain ⟨rest, hrest, h⟩ := Option.bind_eq_some_iff.1 h
    cases h
    rw [List.length_cons, List.length_cons, ih hrest]

/-- An expression with a pole has no value, wherever in it the pole is. -/
theorem HasPole.value?_eq_none {e : Expr} (h : e.HasPole terms) : e.value? terms = none := by
  induction h with
  | @divisor op a b hop hb =>
    rw [value?, hb]
    cases a.value? terms with
    | none => rfl
    | some x => exact BinOp.Singular.result?_eq_none (.inl ⟨hop, rfl⟩)
  | base ha hb hneg =>
    rw [value?, ha, hb]
    exact BinOp.Singular.result?_eq_none (.inr ⟨rfl, rfl, hneg⟩)
  | group _ ih => exact ih
  | unary _ ih =>
    rw [value?, ih]
    rfl
  | left _ ih =>
    rw [value?, ih]
    rfl
  | @right op a b _ ih =>
    rw [value?, ih]
    cases a.value? terms <;> rfl
  | argument ha _ ih =>
    rw [value?, values?_eq_none ha ih]
    split <;> rfl

/-! ## What the evaluation gives -/

/-- The evaluation gives the value over the rationals, or it fails because there is a pole. -/
inductive EvaluatesExactly (tokens : List Token) (terms : List Term) (e : Expr) : Prop where
  | value (v : Rat) (hv : e.value? terms = some v) (h : e.evaluate tokens terms = .ok (.exact v))
  | pole (op : BinOp) (hpole : e.HasPole terms)
    (h : e.evaluate tokens terms = .error (.arithmetic op.fault))

/-- The same for the arguments of a call. -/
inductive EvaluatesAllExactly (tokens : List Token) (terms : List Term) (args : List Expr) :
    Prop where
  | values (vs : List Rat) (hvs : values? terms args = some vs)
    (h : evaluateAll tokens terms args = .ok (vs.map .exact))
  | pole (op : BinOp) {a : Expr} (ha : a ∈ args) (hpole : a.HasPole terms)
    (h : evaluateAll tokens terms args = .error (.arithmetic op.fault))

theorem evaluatesAllExactly {args : List Expr}
    (hargs : ∀ a ∈ args, (∀ p ∈ a.metPowers terms, PowerLimits p.1 p.2) →
      a.EvaluatesExactly tokens terms)
    (hpowers : ∀ p ∈ metPowersAll terms args, PowerLimits p.1 p.2) :
    EvaluatesAllExactly tokens terms args := by
  induction args with
  | nil => exact .values [] rfl rfl
  | cons e es ih =>
    have hfirst : e.EvaluatesExactly tokens terms := by
      refine hargs e List.mem_cons_self fun p hp => hpowers p ?_
      rw [metPowersAll]
      split
      · exact hp
      · exact List.mem_append_left _ hp
    cases hfirst with
    | pole op hpole h =>
      refine .pole op List.mem_cons_self hpole ?_
      rw [evaluateAll, h]
      rfl
    | value v hv h =>
      have hrest : EvaluatesAllExactly tokens terms es := by
        refine ih (fun a ha => hargs a (List.mem_cons_of_mem _ ha)) fun p hp => hpowers p ?_
        rw [metPowersAll, hv]
        exact List.mem_append_right _ hp
      cases hrest with
      | pole op ha hpole hes =>
        refine .pole op (List.mem_cons_of_mem _ ha) hpole ?_
        rw [evaluateAll, h, hes]
        rfl
      | values vs hvs hes =>
        refine .values (v :: vs) ?_ ?_
        · rw [values?, hv, hvs]
          rfl
        · rw [evaluateAll, h, hes]
          rfl

/-- The powers that are met in the left operand, those in the right one if the left one has a value,
and the power itself if both have. -/
theorem metPowers_binary {op : BinOp} {a b : Expr} {P : Rat × Rat → Prop}
    (h : ∀ p ∈ metPowers terms (.binary op a b), P p) :
    (∀ p ∈ a.metPowers terms, P p) ∧
      ∀ x, a.value? terms = some x → (∀ p ∈ b.metPowers terms, P p) ∧
        ∀ y, b.value? terms = some y → op = .pow → P (x, y) := by
  rw [metPowers] at h
  split at h
  · next ha =>
    refine ⟨h, ?_⟩
    rw [ha]
    rintro x ⟨⟩
  · next ha hb =>
    rw [List.forall_mem_append] at h
    refine ⟨h.1, fun _ _ => ⟨h.2, ?_⟩⟩
    rw [hb]
    rintro y ⟨⟩
  · next ha hb =>
    rw [List.forall_mem_append, List.forall_mem_append] at h
    refine ⟨h.1.1, fun x hx => ⟨h.1.2, fun y hy hop => h.2 (x, y) ?_⟩⟩
    rw [if_pos hop, Option.some.inj (ha.symm.trans hx), Option.some.inj (hb.symm.trans hy)]
    exact List.mem_singleton_self _

theorem Exact.evaluatesExactly {e : Expr} (h : e.Exact terms)
    (hpowers : ∀ p ∈ e.metPowers terms, PowerLimits p.1 p.2) :
    e.EvaluatesExactly tokens terms := by
  induction h with
  | @operand i x hi =>
    refine .value x ?_ ?_
    · rw [value?, hi]
    · rw [evaluate, operandValue, hi]
  | group _ ih =>
    cases ih hpowers with
    | value v hv h => exact .value v hv h
    | pole op hpole h => exact .pole op (.group hpole) h
  | @unary s x _ ih =>
    cases ih hpowers with
    | value v hv h =>
      refine .value (s.result v) ?_ ?_
      · rw [value?, hv]
        rfl
      · rw [evaluate, h, ok_bind, Sign.apply_exact]
        rfl
    | pole op hpole h =>
      refine .pole op (.unary hpole) ?_
      rw [evaluate, h]
      rfl
  | @binary op a b _ _ iha ihb =>
    -- the right operand is reached if the left one has a value, and the operator if both have
    obtain ⟨hleft, hpowers⟩ := metPowers_binary hpowers
    cases iha hleft with
    | pole fault hpole h =>
      refine .pole fault (.left hpole) ?_
      rw [evaluate, h]
      rfl
    | value x hx ha =>
      obtain ⟨hright, hpowers⟩ := hpowers x hx
      cases ihb hright with
      | pole fault hpole h =>
        refine .pole fault (.right hpole) ?_
        rw [evaluate, ha, h]
        rfl
      | value y hy hb =>
        have reduced : Expr.evaluate tokens terms (.binary op a b) =
            Number.binary op (.exact x) (.exact y) := by
          rw [evaluate, ha, hb, ok_bind, ok_bind]
        rcases Number.binary_exact (hpowers y hy) with ⟨v, hv, h⟩ | ⟨hpole, h⟩
        · refine .value v ?_ (reduced.trans h)
          rw [value?, hx, hy]
          exact hv
        · exact .pole op (.binary hx hy hpole) (reduced.trans h)
  | @call f args g unit hf hg hcount _ ih =>
    have reduced : Expr.evaluate tokens terms (.call f args) =
        evaluateAll tokens terms args >>= g.apply unit := by
      rw [evaluate, calleeFunction, hf]
      simp only [if_pos hcount, ok_bind]
    cases evaluatesAllExactly ih hpowers with
    | pole op ha hpole h =>
      refine .pole op (.argument ha hpole) ?_
      rw [reduced, h]
      rfl
    | values vs hvs h =>
      rw [← length_of_values? hvs] at hcount
      obtain ⟨v, hv, happly⟩ := Function.apply_exact hg unit hcount
      refine .value v ?_ ?_
      · rw [value?, hf]
        simp only [hvs]
        exact hv
      · rw [reduced, h, ok_bind, happly]

/-- Exact evaluation is rational arithmetic: without a pole the value over the rationals exists and
is what the evaluation gives, as an exact number, and with one the arithmetic fails. -/
theorem evaluate_exact (tokens : List Token) {terms : List Term} {e : Expr} (h : e.Exact terms)
    (hpowers : ∀ p ∈ e.metPowers terms, PowerLimits p.1 p.2) :
    (¬e.HasPole terms → ∃ v, e.value? terms = some v ∧
      e.evaluate tokens terms = .ok (.exact v)) ∧
    (e.HasPole terms → ∃ op : BinOp, e.evaluate tokens terms = .error (.arithmetic op.fault)) := by
  have houtcome : e.EvaluatesExactly tokens terms := h.evaluatesExactly hpowers
  cases houtcome with
  | value v hv hvalue =>
    refine ⟨fun _ => ⟨v, hv, hvalue⟩, fun hpole => ?_⟩
    rw [hpole.value?_eq_none] at hv
    cases hv
  | pole op hpole hfault => exact ⟨fun hno => absurd hpole hno, fun _ => ⟨op, hfault⟩⟩

/-- `min(2 ** -7, abs(-7 // 2)) % 2` has the value `1 / 128`.  In `2 / (2 - 2) + 2 ** (1 / 2)` the
evaluation stops at the zero divisor, before the power whose exponent is not an integer. -/
theorem evaluate_exact_min :
    let terms : List Term := [.function .min .radian, .function .abs .radian, .number (.exact 2),
      .number (.exact (-7)), .number (.exact (1 / 2))]
    let regular : Expr := .binary .mod
      (.call 0 [.binary .pow (.operand 2) (.operand 3),
        .call 1 [.binary .floorDiv (.operand 3) (.operand 2)]]) (.operand 2)
    let singular : Expr := .binary .add
      (.binary .div (.operand 2) (.group (.binary .sub (.operand 2) (.operand 2))))
      (.binary .pow (.operand 2) (.operand 4))
    ((regular.Exact terms ∧ ∀ p ∈ regular.metPowers terms, PowerLimits p.1 p.2) ∧
      regular.value? terms = some (1 / 128) ∧ ∃ v, regular.value? terms = some v ∧
        regular.evaluate [] terms = .ok (.exact v)) ∧
    (singular.Exact terms ∧ ∀ p ∈ singular.metPowers terms, PowerLimits p.1 p.2) ∧
      ∃ op : BinOp, singular.evaluate [] terms = .error (.arithmetic op.fault) := by
  intro terms regular singular
  have hregular : regular.Exact terms := by
    refine .binary (.call rfl (.inl rfl) rfl ?_) (.operand rfl)
    refine List.forall_mem_cons.2 ⟨.binary (.operand rfl) (.operand rfl), ?_⟩
    refine List.forall_mem_singleton.2 (.call rfl (.inr (.inr rfl)) rfl ?_)
    exact List.forall_mem_singleton.2 (.binary (.operand rfl) (.operand rfl))
  have hsingular : singular.Exact terms :=
    .binary (.binary (.operand rfl) (.group (.binary (.operand rfl) (.operand rfl))))
      (.binary (.operand rfl) (.operand rfl))
  have hmet : ∀ p ∈ regular.metPowers terms, PowerLimits p.1 p.2 := by decide +kernel
  have hmet' : ∀ p ∈ singular.metPowers terms, PowerLimits p.1 p.2 := by decide +kernel
  have hvalue : regular.value? terms = some (1 / 128) := by decide +kernel
  have hdivisor : (group (.binary .sub (.operand 2) (.operand 2))).value? terms = some 0 := by
    decide +kernel
  have hno : ¬regular.HasPole terms := by
    intro hpole
    rw [hpole.value?_eq_none] at hvalue
    cases hvalue
  exact ⟨⟨⟨hregular, hmet⟩, hvalue, (evaluate_exact [] hregular hmet).1 hno⟩,
    ⟨hsingular, hmet'⟩, (evaluate_exact [] hsingular hmet').2 (.left (.divisor rfl hdivisor))⟩

end Expr

end Formulary
