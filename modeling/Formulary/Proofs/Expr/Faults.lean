import Formulary.Expr.Evaluate
import Formulary.Proofs.Expr.Grammar
import Formulary.Proofs.Outcome

/-! # How computations fail

Arithmetic fails with a fault.  An expression fails with a fault too, or at a token that has no
number where one is needed, or no function.
-/

namespace Formulary

open Error (DefectAt IsFault isFault_arithmetic)

namespace Number

theorem failsOnly_finite (op : BinOp) (x : Float) : FailsOnly IsFault (finite op x) := by
  unfold finite
  split
  · exact failsOnly_ok _ _
  · exact failsOnly_error.2 (isFault_arithmetic _)

theorem failsOnly_divisor (op : BinOp) (b : Number) {k : Except Error Number}
    (hk : FailsOnly IsFault k) : FailsOnly IsFault (divisor op b k) := by
  unfold divisor
  split
  · exact failsOnly_error.2 (isFault_arithmetic _)
  · exact hk

theorem failsOnly_realPower (x y : Float) : FailsOnly IsFault (realPower x y) := by
  unfold realPower
  split
  · exact failsOnly_error.2 (isFault_arithmetic _)
  · split
    · exact failsOnly_error.2 (isFault_arithmetic _)
    · exact failsOnly_finite _ _

theorem failsOnly_pow (a b : Number) : FailsOnly IsFault (pow a b) := by
  unfold pow
  split
  · split
    · unfold exactPower
      split
      · exact failsOnly_error.2 (isFault_arithmetic _)
      · exact failsOnly_ok _ _
    · exact failsOnly_realPower _ _
  · exact failsOnly_realPower _ _

theorem failsOnly_binary (op : BinOp) (a b : Number) : FailsOnly IsFault (binary op a b) := by
  cases op with
  | add | sub | mul =>
    cases a <;> cases b <;> first | exact failsOnly_ok _ _ | exact failsOnly_finite _ _
  | div | floorDiv | mod =>
    refine failsOnly_divisor _ b ?_
    cases a <;> cases b <;> first | exact failsOnly_ok _ _ | exact failsOnly_finite _ _
  | pow => exact failsOnly_pow a b

end Number

theorem Function.failsOnly_apply (f : Function) (unit : AngleUnit) (args : List Number) :
    FailsOnly IsFault (f.apply unit args) := by
  unfold Function.apply
  split
  · exact failsOnly_error.2 (isFault_arithmetic _)
  · split
    · exact failsOnly_ok _ _
    · split
      · exact failsOnly_ok _ _
      · exact failsOnly_error.2 (isFault_arithmetic _)

/-- The position of a token, and the beginning of the formula for one that does not exist. -/
theorem Token.positionAt_mem (tokens : List Token) (i : Nat) :
    positionAt tokens i ∈ 0 :: tokens.map (·.position) := by
  unfold positionAt
  split
  · next t ht => exact List.mem_cons_of_mem _ (List.mem_map_of_mem (List.mem_of_getElem? ht))
  · exact List.mem_cons_self

namespace Expr

variable (tokens : List Token) (terms : List Term)

/-- Is it a fault, or a defect at a token? -/
def FaultOrDefect (err : Error) : Prop :=
  IsFault err ∨ DefectAt (0 :: tokens.map (·.position)) err

theorem faultOrDefect_malformed (i : Nat) (d : Defect) :
    FaultOrDefect tokens (.malformed (Token.positionAt tokens i) d) :=
  .inr (.malformed (Token.positionAt_mem tokens i) d)

theorem failsOnly_operandValue (i : Nat) :
    FailsOnly (FaultOrDefect tokens) (operandValue tokens terms i) := by
  unfold operandValue
  split
  · exact failsOnly_ok _ _
  · exact failsOnly_error.2 (faultOrDefect_malformed tokens i _)
  · exact failsOnly_error.2 (faultOrDefect_malformed tokens i _)

theorem failsOnly_calleeFunction (f count : Nat) :
    FailsOnly (FaultOrDefect tokens) (calleeFunction tokens terms f count) := by
  unfold calleeFunction
  split
  · split
    · exact failsOnly_ok _ _
    · exact failsOnly_error.2 (faultOrDefect_malformed tokens f _)
  · exact failsOnly_error.2 (faultOrDefect_malformed tokens f _)

/-- Arguments fail as one of them does. -/
theorem failsOnly_evaluateAll {P : Error → Prop} {args : List Expr}
    (h : ∀ a ∈ args, FailsOnly P (a.evaluate tokens terms)) :
    FailsOnly P (evaluateAll tokens terms args) := by
  induction args with
  | nil => exact failsOnly_ok _ []
  | cons a args ih =>
    obtain ⟨ha, hrest⟩ := List.forall_mem_cons.1 h
    exact ha.bind fun _ _ => (ih hrest).bind fun _ _ => failsOnly_ok _ _

theorem failsOnly_evaluate (e : Expr) :
    FailsOnly (FaultOrDefect tokens) (e.evaluate tokens terms) := by
  induction e with
  | operand i => exact failsOnly_operandValue tokens terms i
  | group x ih => exact ih
  | unary s x ih => exact ih.bind fun _ _ => failsOnly_ok _ _
  | binary op a b iha ihb =>
    refine iha.bind fun x _ => ihb.bind fun y _ => ?_
    exact (Number.failsOnly_binary op x y).mono fun _ => .inl
  | call f args ih =>
    refine (failsOnly_calleeFunction tokens terms f args.length).bind fun callee _ => ?_
    exact (failsOnly_evaluateAll tokens terms ih).bind fun values _ =>
      (Function.failsOnly_apply callee.1 callee.2 values).mono fun _ => .inl

end Expr

end Formulary
