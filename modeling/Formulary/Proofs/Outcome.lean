import Formulary.Error

/-! # Outcomes

When a computation that can fail is put together from parts, it succeeds if its parts do, and its
failures are those of its parts.  Two computations are compared the same way, part by part.
-/

namespace Formulary

variable {ε ε' α β α' β' : Type}

@[simp] theorem ok_bind (a : α) (f : α → Except ε β) : (Except.ok a >>= f) = f a := rfl

@[simp] theorem error_bind (e : ε) (f : α → Except ε β) : (Except.error e >>= f) = .error e := rfl

@[simp] theorem pure_eq_ok (a : α) : (pure a : Except ε α) = .ok a := rfl

theorem bind_eq_ok_iff {x : Except ε α} {f : α → Except ε β} {b : β} :
    (x >>= f) = .ok b ↔ ∃ a, x = .ok a ∧ f a = .ok b := by
  cases x with
  | error e => simp
  | ok a => simp

/-! ## Failures -/

theorem bind_eq_error_iff {x : Except ε α} {f : α → Except ε β} {err : ε} :
    (x >>= f) = .error err ↔ x = .error err ∨ ∃ a, x = .ok a ∧ f a = .error err := by
  cases x with
  | error e => simp
  | ok a => simp

/-- Are all failures of the computation among those of `P`? -/
def FailsOnly (P : ε → Prop) (x : Except ε α) : Prop :=
  ∀ err, x = .error err → P err

@[simp] theorem failsOnly_ok (P : ε → Prop) (a : α) : FailsOnly P (Except.ok a) := by
  intro err h
  cases h

@[simp] theorem failsOnly_error {P : ε → Prop} {err : ε} :
    FailsOnly P (Except.error err : Except ε α) ↔ P err := by
  constructor
  · intro h
    exact h err rfl
  · rintro h _ ⟨⟩
    exact h

theorem FailsOnly.bind {P : ε → Prop} {x : Except ε α} {f : α → Except ε β} (hx : FailsOnly P x)
    (hf : ∀ a, x = .ok a → FailsOnly P (f a)) : FailsOnly P (x >>= f) := by
  cases x with
  | error err => exact failsOnly_error.2 (hx err rfl)
  | ok a => exact hf a rfl

theorem FailsOnly.mono {P Q : ε → Prop} {x : Except ε α} (h : FailsOnly P x)
    (hPQ : ∀ err, P err → Q err) : FailsOnly Q x :=
  fun err herr => hPQ err (h err herr)

/-! ## Two computations -/

/-- Two computations that fail together, with failures related by `E`, or succeed together, with
outcomes related by `R`. -/
inductive Alike (E : ε → ε' → Prop) (R : α → β → Prop) : Except ε α → Except ε' β → Prop
  | error {err : ε} {err' : ε'} (h : E err err') : Alike E R (.error err) (.error err')
  | ok {a : α} {b : β} (h : R a b) : Alike E R (.ok a) (.ok b)

namespace Alike

variable {E : ε → ε' → Prop} {R : α → β → Prop} {S : α' → β' → Prop} {x : Except ε α}
  {y : Except ε' β}

theorem bind (h : Alike E R x y) {f : α → Except ε α'} {g : β → Except ε' β'}
    (hfg : ∀ a b, x = .ok a → y = .ok b → R a b → Alike E S (f a) (g b)) :
    Alike E S (x >>= f) (y >>= g) := by
  cases h with
  | error herr => exact .error herr
  | ok hab => exact hfg _ _ rfl rfl hab

theorem mono (h : Alike E R x y) {S : α → β → Prop} (hRS : ∀ a b, R a b → S a b) :
    Alike E S x y := by
  cases h with
  | error herr => exact .error herr
  | ok hab => exact .ok (hRS _ _ hab)

theorem exists_of_ok {a : α} (h : Alike E R (.ok a) y) : ∃ b, y = .ok b ∧ R a b := by
  cases h with
  | ok hab => exact ⟨_, rfl, hab⟩

theorem exists_of_error {err : ε} (h : Alike E R (.error err) y) :
    ∃ err', y = .error err' ∧ E err err' := by
  cases h with
  | error herr => exact ⟨_, rfl, herr⟩

theorem same {E : ε → ε → Prop} (h : ∀ err, E err err) {x : Except ε α} : Alike E Eq x x := by
  cases x with
  | error err => exact .error (h err)
  | ok a => exact .ok rfl

/-- If each succeeds when the other does, whatever their failures may be. -/
theorem of_ok (hx : ∀ a, x = .ok a → ∃ b, y = .ok b)
    (hy : ∀ b, y = .ok b → ∃ a, x = .ok a ∧ R a b) : Alike (fun _ _ => True) R x y := by
  cases y with
  | ok b =>
    obtain ⟨a, rfl, hab⟩ := hy b rfl
    exact .ok hab
  | error err' =>
    cases x with
    | error err => exact .error trivial
    | ok a =>
      obtain ⟨b, hb⟩ := hx a rfl
      cases hb

/-- Computations with the same outcomes. -/
theorem of_ok_iff {x y : Except ε α} (h : ∀ a, x = .ok a ↔ y = .ok a) :
    Alike (fun _ _ => True) Eq x y :=
  of_ok (fun a ha => ⟨a, (h a).1 ha⟩) fun a ha => ⟨a, (h a).2 ha, rfl⟩

theorem bind_same {x : Except ε α} {f : α → Except ε α'} {g : α → Except ε β'}
    (hfg : ∀ a, x = .ok a → Alike Eq S (f a) (g a)) : Alike Eq S (x >>= f) (x >>= g) := by
  cases x with
  | error err => exact .error rfl
  | ok a => exact hfg a rfl

end Alike

namespace Error

/-- Is it a defect at one of the given positions? -/
def DefectAt (positions : List Nat) (err : Error) : Prop :=
  ∃ p ∈ positions, ∃ d, err = .malformed p d

theorem DefectAt.malformed {positions : List Nat} {p : Nat} (h : p ∈ positions) (d : Defect) :
    DefectAt positions (.malformed p d) :=
  ⟨p, h, d, rfl⟩

theorem DefectAt.mono {positions more : List Nat} (h : positions ⊆ more) {err : Error} :
    DefectAt positions err → DefectAt more err := by
  rintro ⟨p, hp, hd⟩
  exact ⟨p, h hp, hd⟩

/-- Is it a fault of the arithmetic? -/
def IsFault (err : Error) : Prop :=
  ∃ fault, err = .arithmetic fault

theorem isFault_arithmetic (fault : ArithmeticFault) : IsFault (.arithmetic fault) :=
  ⟨fault, rfl⟩

end Error

end Formulary
