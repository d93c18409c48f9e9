import Formulary.Proofs.Expr.Context
import Formulary.Proofs.Expr.Typing
import Formulary.Proofs.Function.Extreme
import Formulary.Proofs.Number.Power

/-! # Finite values

Operators and functions check the floats that they compute, and the others keep what they are given
or change its sign.  So where the bound numbers are finite, all that is computed on the way to a
value is finite too.
-/

namespace Formulary

/-! ## Operators -/

namespace Number

/-- Is it exact, or a float that is neither infinite nor NaN? -/
def IsFinite : Number → Prop
  | exact _ => True
  | real x => x.isFinite = true

instance : DecidablePred IsFinite
  | exact _ => .isTrue trivial
  | real x => inferInstanceAs (Decidable (x.isFinite = true))

variable {x y z : Number}

theorem IsFinite.neg (h : x.IsFinite) : x.neg.IsFinite := by
  cases x with
  | exact r => trivial
  | real x => exact (Binary64.isFinite_neg x).trans h

theorem IsFinite.abs (h : x.IsFinite) : x.abs.IsFinite := by
  cases x with
  | exact r => trivial
  | real x => exact (Binary64.isFinite_abs x).trans h

theorem isFinite_of_finite {op : BinOp} {v : Float} (h : finite op v = .ok z) : z.IsFinite := by
  obtain ⟨hv, rfl⟩ := finite_eq_ok_iff.1 h
  exact hv

theorem isFinite_of_realPower {v w : Float} (h : realPower v w = .ok z) : z.IsFinite := by
  obtain ⟨hpower, rfl⟩ := realPower_eq_ok h
  exact hpower

/-- An operator on exact numbers gives an exact one, and any other result is checked. -/
theorem isFinite_of_match {op : BinOp} (f : Rat → Rat → Rat) (g : Number → Number → Float)
    (h : (match x, y with
      | exact a, exact b => .ok (.exact (f a b))
      | a, b => finite op (g a b)) = Except.ok z) : z.IsFinite := by
  split at h
  · cases h
    trivial
  · exact isFinite_of_finite h

theorem divisor_eq_ok_iff {op : BinOp} {k : Except Error Number} :
    divisor op y k = .ok z ↔ y.isZero = false ∧ k = .ok z := by
  unfold divisor
  split
  · next zero => simp [zero]
  · next nonzero => simp [nonzero]

theorem isFinite_of_pow (h : pow x y = .ok z) : z.IsFinite := by
  cases x with
  | exact base =>
    cases y with
    | exact e =>
      by_cases limits : PowerLimits base e
      · rw [pow_of_limits limits] at h
        split at h
        · cases h
        · cases h
          trivial
      · rw [pow_of_not_limits limits] at h
        exact isFinite_of_realPower h
    | real y => exact isFinite_of_realPower h
  | real x => exact isFinite_of_realPower h

theorem isFinite_of_binary {op : BinOp} (h : binary op x y = .ok z) : z.IsFinite := by
  cases op with
  | add => exact isFinite_of_match (· + ·) (fun x y => x.toFloat + y.toFloat) h
  | sub => exact isFinite_of_match (· - ·) (fun x y => x.toFloat - y.toFloat) h
  | mul => exact isFinite_of_match (· * ·) (fun x y => x.toFloat * y.toFloat) h
  | div =>
    exact isFinite_of_match (· / ·) (fun x y => x.toFloat / y.toFloat) (divisor_eq_ok_iff.1 h).2
  | floorDiv =>
    exact isFinite_of_match (fun a b => (a / b).floor)
      (fun x y => floorQuotient x.toFloat y.toFloat) (divisor_eq_ok_iff.1 h).2
  | mod =>
    exact isFinite_of_match (fun a b => a - b * (a / b).floor)
      (fun x y => Binary64.modulo x.toFloat y.toFloat) (divisor_eq_ok_iff.1 h).2
  | pow => exact isFinite_of_pow h

end Number

/-! ## Functions -/

namespace Function

/-- What is not computed as a float is one of the arguments, or the first one without its sign. -/
theorem isFinite_aggregate (f : Function) {first : Number} {rest : List Number}
    (h : ∀ a ∈ first :: rest, a.IsFinite) : (f.aggregate first rest).IsFinite := by
  unfold aggregate
  split
  · exact h _ (scan_spec Number.lessThan Number.lessThan_irrefl Number.lessThan_trans ..).1
  · exact h _ (scan_spec (fun a b => b.lessThan a) Number.lessThan_irrefl
      (fun hab hbc => Number.lessThan_trans hbc hab) ..).1
  · exact (h first List.mem_cons_self).abs

theorem isFinite_of_apply {f : Function} {unit : AngleUnit} {xs : List Number} {n : Number}
    (hxs : ∀ a ∈ xs, a.IsFinite) (h : f.apply unit xs = .ok n) : n.IsFinite := by
  unfold apply at h
  split at h
  · cases h
  split at h
  · cases h
    exact isFinite_aggregate f hxs
  · split at h
    · next finite =>
      cases h
      exact finite
    · cases h

end Function

/-! ## Expressions -/

namespace Expr

variable {tokens : List Token} {terms : List Term}

theorem forall_isFinite_of_evaluateAll {args : List Expr} {xs : List Number}
    (step : ∀ a ∈ args, ∀ x, a.evaluate tokens terms = .ok x → x.IsFinite)
    (h : evaluateAll tokens terms args = .ok xs) : ∀ x ∈ xs, x.IsFinite := by
  induction args generalizing xs with
  | nil =>
    cases h
    simp
  | cons a args ih =>
    obtain ⟨hhead, htail⟩ := List.forall_mem_cons.1 step
    obtain ⟨x, hx, h⟩ := bind_eq_ok_iff.1 h
    obtain ⟨rest, hrest, h⟩ := bind_eq_ok_iff.1 h
    cases h
    exact List.forall_mem_cons.2 ⟨hhead x hx, ih htail hrest⟩

/-- Every value is finite if the numbers that tokens stand for are. -/
theorem isFinite_of_evaluate (hterms : ∀ x, Term.number x ∈ terms → x.IsFinite) {e : Expr}
    {n : Number} (h : e.evaluate tokens terms = .ok n) : n.IsFinite := by
  induction e generalizing n with
  | operand i => exact hterms n (List.mem_of_getElem? (operandValue_eq_ok_iff.1 h))
  | group x ih => exact ih h
  | unary s x ih =>
    obtain ⟨v, hv, h⟩ := bind_eq_ok_iff.1 h
    cases h
    cases s with
    | plus => exact ih hv
    | minus => exact (ih hv).neg
  | binary op a b =>
    obtain ⟨x, -, h⟩ := bind_eq_ok_iff.1 h
    obtain ⟨y, -, h⟩ := bind_eq_ok_iff.1 h
    exact Number.isFinite_of_binary h
  | call f args ih =>
    obtain ⟨⟨g, unit⟩, -, h⟩ := bind_eq_ok_iff.1 h
    obtain ⟨xs, hxs, h⟩ := bind_eq_ok_iff.1 h
    exact Function.isFinite_of_apply
      (forall_isFinite_of_evaluateAll (fun a ha x hx => ih a ha hx) hxs) h

/-- An expression has a value only if all its parts have values: nothing is left out. -/
theorem Context.exists_of_plug {c : Context} {x : Expr} {n : Number}
    (h : (c.plug x).evaluate tokens terms = .ok n) : ∃ v, x.evaluate tokens terms = .ok v := by
  induction c generalizing n with
  | hole => exact ⟨n, h⟩
  | group c ih => exact ih h
  | unary s c ih =>
    obtain ⟨v, hv, -⟩ := bind_eq_ok_iff.1 h
    exact ih hv
  | left op c b ih =>
    obtain ⟨v, hv, -⟩ := bind_eq_ok_iff.1 h
    exact ih hv
  | right op a c ih =>
    obtain ⟨_, -, h⟩ := bind_eq_ok_iff.1 h
    obtain ⟨v, hv, -⟩ := bind_eq_ok_iff.1 h
    exact ih hv
  | arg f args c rest ih =>
    obtain ⟨_, -, h⟩ := bind_eq_ok_iff.1 h
    obtain ⟨xs, hxs, -⟩ := bind_eq_ok_iff.1 h
    obtain ⟨v, hv⟩ := exists_of_evaluateAll hxs (c.plug x) (by simp)
    exact ih hv

/-- No infinity and no NaN comes up in an evaluation.  If the numbers that tokens stand for are
finite, so is the value of an expression, and so are the values of its parts: all of them have
values if the expression has one. -/
theorem evaluate_finite (tokens : List Token) {terms : List Term}
    (hterms : ∀ x, Term.number x ∈ terms → x.IsFinite) (e : Expr) :
    (∀ n, e.evaluate tokens terms = .ok n → n.IsFinite) ∧
    ∀ (c : Context) (x : Expr), e = c.plug x →
      (∀ v, x.evaluate tokens terms = .ok v → v.IsFinite) ∧
      ((∃ n, e.evaluate tokens terms = .ok n) →
        ∃ v, x.evaluate tokens terms = .ok v ∧ v.IsFinite) := by
  refine ⟨fun n => isFinite_of_evaluate hterms, fun c x hplug => ?_⟩
  refine ⟨fun v => isFinite_of_evaluate hterms, ?_⟩
  rintro ⟨n, hn⟩
  obtain ⟨v, hv⟩ := Context.exists_of_plug (hplug ▸ hn)
  exact ⟨v, hv, isFinite_of_evaluate hterms hv⟩

/-- A quotient in an argument whose value is not used. -/
theorem evaluate_finite_min :
    let terms : List Term :=
      [.function .min .radian, .number (.exact 0), .number (.real 1), .number (.real 3)]
    let e : Expr := .call 0 [.operand 1, .binary .div (.operand 2) (.operand 3)]
    (∀ x, Term.number x ∈ terms → x.IsFinite) ∧ e.evaluate [] terms = .ok (.exact 0) ∧
      ∃ v, evaluate [] terms (.binary .div (.operand 2) (.operand 3)) = .ok v ∧ v.IsFinite := by
  intro terms e
  have hterms : ∀ x, Term.number x ∈ terms → x.IsFinite := by
    intro x hx
    obtain rfl | rfl | rfl : x = .exact 0 ∨ x = .real 1 ∨ x = .real 3 := by simpa [terms] using hx
    · decide
    · decide +kernel
    · decide +kernel
  have value : e.evaluate [] terms = .ok (.exact 0) := by decide +kernel
  exact ⟨hterms, value, ((evaluate_finite [] hterms e).2
    (.arg 0 [.operand 1] .hole []) _ rfl).2 ⟨_, value⟩⟩

end Expr

end Formulary
