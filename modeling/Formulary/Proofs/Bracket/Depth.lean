import Formulary.Bracket
import Formulary.Skeleton.Nesting
import Formulary.Span

/-! # Depth of brackets

How the number of open brackets changes along a text.  A text that ends at the depth at which it
began, and never goes below it, is invisible to everything in this library that follows brackets:
the search for a closing bracket passes over it, and so does the search for operators when a
bracket is open.
-/

namespace Formulary.Bracket

/-- The number of open brackets after `c`; nothing if `c` closes a bracket that is not open. -/
def step? : (depth : Nat) → Char → Option Nat
  | depth, c =>
    if c = '(' then some (depth + 1)
    else if c = ')' then (if depth = 0 then none else some (depth - 1))
    else some depth

/-- The number of open brackets after a text. -/
def depthAfter? (depth : Nat) (cs : List Char) : Option Nat :=
  cs.foldlM step? depth

@[simp] theorem depthAfter?_nil (d : Nat) : depthAfter? d [] = some d := rfl

@[simp] theorem depthAfter?_cons (d : Nat) (c : Char) (cs : List Char) :
    depthAfter? d (c :: cs) = (step? d c).bind (depthAfter? · cs) := rfl

@[simp] theorem depthAfter?_append (d : Nat) (xs ys : List Char) :
    depthAfter? d (xs ++ ys) = (depthAfter? d xs).bind (depthAfter? · ys) :=
  List.foldlM_append

/-- What a step does, by the character that is read. -/
theorem step?_eq_some_iff {d d' : Nat} {c : Char} :
    step? d c = some d' ↔
      c = '(' ∧ d' = d + 1 ∨ c = ')' ∧ d = d' + 1 ∨ c ≠ '(' ∧ c ≠ ')' ∧ d' = d := by
  unfold step?
  by_cases ho : c = '('
  · subst ho
    simp [eq_comm]
  · by_cases hc : c = ')'
    · subst hc
      by_cases hd : d = 0
      · simp [hd]
      · simp [hd]
        omega
    · simp [ho, hc, eq_comm]

theorem step?_eq_none_iff {d : Nat} {c : Char} : step? d c = none ↔ c = ')' ∧ d = 0 := by
  simp only [step?]
  split
  · next ho => simp [ho]
  · split
    · next hc => simp [hc]
    · next hc => simp [hc]

@[simp] theorem step?_open (d : Nat) : step? d '(' = some (d + 1) := rfl
@[simp] theorem step?_close (d : Nat) : step? (d + 1) ')' = some d := rfl

theorem step?_of_ne {c : Char} (ho : c ≠ '(') (hc : c ≠ ')') (d : Nat) : step? d c = some d :=
  step?_eq_some_iff.2 (.inr (.inr ⟨ho, hc, rfl⟩))

/-- A step that leaves a bracket open does not see it. -/
theorem step?_of_succ {d d' : Nat} {c : Char} (h : step? (d + 1) c = some (d' + 1)) :
    step? d c = some d' := by
  rcases step?_eq_some_iff.1 h with ⟨ho, hd⟩ | ⟨hc, hd⟩ | ⟨ho, hc, hd⟩
  · exact step?_eq_some_iff.2 (.inl ⟨ho, by omega⟩)
  · exact step?_eq_some_iff.2 (.inr (.inl ⟨hc, by omega⟩))
  · exact step?_eq_some_iff.2 (.inr (.inr ⟨ho, hc, by omega⟩))

/-! ## The depth as a count

The depth after a text is defined when no prefix closes more than is open, and is then the
difference of the counts.
-/

/-- The prefixes of a nonempty text are the empty one and those that begin with its first
character. -/
theorem forall_prefix_cons {P : List Char → Prop} {c : Char} {cs : List Char} :
    (∀ p, p <+: c :: cs → P p) ↔ P [] ∧ ∀ p, p <+: cs → P (c :: p) := by
  constructor
  · intro h
    exact ⟨h [] List.nil_prefix, fun p hp => h _ ((List.prefix_cons_inj c).2 hp)⟩
  · rintro ⟨h₀, h⟩ p hp
    rcases List.prefix_cons_iff.1 hp with rfl | ⟨q, rfl, hq⟩
    · exact h₀
    · exact h q hq

theorem depthAfter?_eq_some_iff {d d' : Nat} {cs : List Char} :
    depthAfter? d cs = some d' ↔
      (∀ p, p <+: cs → p.count ')' ≤ d + p.count '(') ∧
        d + cs.count '(' = d' + cs.count ')' := by
  induction cs generalizing d with
  | nil => simp [List.prefix_nil]
  | cons c cs ih =>
    rw [depthAfter?_cons, Option.bind_eq_some_iff, forall_prefix_cons]
    by_cases ho : c = '('
    · subst ho
      simp [step?, ih]
      grind
    · by_cases hc : c = ')'
      · subst hc
        cases d with
        | zero =>
          refine iff_of_false (by simp [step?]) ?_
          intro h
          have := h.1.2 [] List.nil_prefix
          simp at this
        | succ d =>
          simp [step?, ih]
          grind
      · simp [step?, ih, ho, hc]

/-! ## Balanced text -/

/-- Does no beginning of the text close more brackets than it opens, and does the whole close all
that it opens? -/
structure Balanced (cs : List Char) : Prop where
  close_le_open : ∀ p, p <+: cs → p.count ')' ≤ p.count '('
  open_eq_close : cs.count '(' = cs.count ')'

theorem balanced_iff {cs : List Char} : Balanced cs ↔ depthAfter? 0 cs = some 0 := by
  rw [depthAfter?_eq_some_iff]
  simp only [Nat.zero_add]
  exact ⟨fun h => ⟨h.close_le_open, h.open_eq_close⟩, fun ⟨hle, heq⟩ => ⟨hle, heq⟩⟩

/-- A balanced text may be left out in front of another one. -/
theorem Balanced.append_iff {xs ys : List Char} (h : Balanced xs) :
    Balanced (xs ++ ys) ↔ Balanced ys := by
  rw [balanced_iff, depthAfter?_append, balanced_iff.1 h, Option.bind_some, balanced_iff]

/-- A balanced text is balanced up to every place where all brackets are closed. -/
theorem Balanced.of_append {xs ys : List Char} (h : Balanced (xs ++ ys))
    (level : xs.count '(' = xs.count ')') : Balanced xs :=
  ⟨fun p hp => h.close_le_open p (hp.trans (List.prefix_append xs ys)), level⟩

/-! ## Searches that pass over balanced text -/

/-- The search for a closing bracket counts the same depth. -/
theorem closing?_cons {d d' : Nat} {c : Char} (h : step? d c = some d') (cs : List Char) :
    closing? '(' ')' d (c :: cs) = (closing? '(' ')' d' cs).map (· + 1) := by
  rcases step?_eq_some_iff.1 h with ⟨rfl, rfl⟩ | ⟨rfl, rfl⟩ | ⟨ho, hc, rfl⟩
  · simp [closing?]
  · simp [closing?]
  · simp [closing?, ho, hc]

/-- The search for a closing bracket goes on behind a text that closes none of the brackets open
before it. -/
theorem closing?_append {d d' : Nat} {xs : List Char} (h : depthAfter? d xs = some d')
    (ys : List Char) :
    closing? '(' ')' d (xs ++ ys) = (closing? '(' ')' d' ys).map (· + xs.length) := by
  induction xs generalizing d with
  | nil =>
    cases h
    simp
  | cons c cs ih =>
    obtain ⟨d₁, h₁, h₂⟩ := Option.bind_eq_some_iff.1 h
    rw [List.cons_append, closing?_cons h₁, ih h₂, Option.map_map]
    rfl

/-- The search ends at the first bracket that closes more than is open; if there is none, the depth
is defined to the end. -/
theorem closing?_spec (d : Nat) (cs : List Char) :
    match closing? '(' ')' d cs with
    | some k => ∃ xs ys, cs = xs ++ ')' :: ys ∧ xs.length = k ∧ depthAfter? d xs = some 0
    | none => ∃ d', depthAfter? d cs = some d' := by
  induction cs generalizing d with
  | nil => exact ⟨d, rfl⟩
  | cons c cs ih =>
    cases hstep : step? d c with
    | none =>
      obtain ⟨rfl, rfl⟩ := step?_eq_none_iff.1 hstep
      exact ⟨[], cs, rfl, rfl, rfl⟩
    | some d₁ =>
      have rest := ih d₁
      rw [closing?_cons hstep]
      cases hk : closing? '(' ')' d₁ cs with
      | none =>
        rw [hk] at rest
        obtain ⟨d', hd'⟩ := rest
        exact ⟨d', by rwa [depthAfter?_cons, hstep]⟩
      | some k =>
        rw [hk] at rest
        obtain ⟨xs, ys, rfl, rfl, hd⟩ := rest
        exact ⟨c :: xs, ys, rfl, rfl, by rwa [depthAfter?_cons, hstep]⟩

/-- The bracket that the search finds, and what stands before it. -/
theorem closing?_eq_some {d k : Nat} {cs : List Char} (h : closing? '(' ')' d cs = some k) :
    ∃ xs ys, cs = xs ++ ')' :: ys ∧ xs.length = k ∧ depthAfter? d xs = some 0 := by
  have spec := closing?_spec d cs
  rwa [h] at spec

theorem closing?_eq_none_iff {d : Nat} {cs : List Char} :
    closing? '(' ')' d cs = none ↔ ∃ d', depthAfter? d cs = some d' := by
  constructor
  · intro h
    have spec := closing?_spec d cs
    rwa [h] at spec
  · rintro ⟨d', h⟩
    simpa [closing?] using closing?_append h []

end Formulary.Bracket
