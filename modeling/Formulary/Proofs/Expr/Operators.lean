import Formulary.Proofs.Expr.Spelling
import Formulary.Proofs.Stretch.Cut

/-! # The operators of a spelling

The operators found at the level of a spelling are the signs and binary operators of the tree that
are outside its groups and calls.  Which of them cut at each level follows: the sums cut the
spelling into the operands of the chain of additions and subtractions, and so on.
-/

namespace Formulary

open Stretch (levelOperators)

namespace Stretch

theorem longest?_symbol (op : BinOp) {rest : List Char}
    (h : ∀ c, rest.head? = some c → c ≠ '*' ∧ c ≠ '/') :
    Span.longest? levelOperators (op.symbol ++ rest) = some op.symbol := by
  cases rest with
  | nil => cases op <;> rfl
  | cons c cs =>
    obtain ⟨hs, hd⟩ := h c rfl
    cases op <;> simp [Span.longest?, levelOperators, BinOp.symbol, hs.symm, hd.symm]

theorem longest?_sign (s : Sign) (rest : List Char) :
    Span.longest? levelOperators (s.symbol :: rest) = some [s.symbol] := by
  cases s <;> simp [Span.longest?, levelOperators, Sign.symbol]

theorem longest?_comma (rest : List Char) :
    Span.longest? levelOperators (',' :: rest) = some [','] := by
  simp [Span.longest?, levelOperators]

theorem longest?_open (rest : List Char) : Span.longest? levelOperators ('(' :: rest) = none := by
  simp [Span.longest?, levelOperators]

theorem longest?_placeholder {c : Char} (h : isPlaceholder c = true) (rest : List Char) :
    Span.longest? levelOperators (c :: rest) = none := by
  rcases isPlaceholder_iff.1 h with rfl | rfl <;> simp [Span.longest?, levelOperators]

end Stretch

namespace Expr

variable (place : Nat → Char)

/-- The signs and operators outside the groups and calls of a tree, when its spelling begins at
`i`. -/
def operatorSpans : (i : Nat) → Expr → List Span
  | i, unary s x => ⟨i, [s.symbol]⟩ :: operatorSpans (i + 1) x
  | i, binary op a b =>
    operatorSpans i a ++
      ⟨i + (a.glyphs place).length, op.symbol⟩ ::
        operatorSpans (i + (a.glyphs place).length + op.symbol.length) b
  | _, _ => []

@[simp] theorem length_spell (e : Expr) : (e.spell place).length = (e.glyphs place).length := by
  simp [spell]

variable {place}

variable (hp : ∀ i, isPlaceholder (place i) = true)

include hp

theorem head?_spell_ne (e : Expr) (rest : List Char) {c : Char}
    (h : (e.spell place ++ rest).head? = some c) : c ≠ '*' ∧ c ≠ '/' := by
  obtain ⟨c', cs, he, hc⟩ := exists_head_spell hp e
  obtain rfl : c' = c := by simpa [he] using h
  rcases hc with hc | rfl | ⟨s, rfl⟩
  · rcases isPlaceholder_iff.1 hc with rfl | rfl <;> decide
  · decide
  · cases s <;> decide

/-- A scan that comes to the spelling of a tree finds its operators and goes on behind it. -/
theorem scan_spell (e : Expr) (rest : List Char) (i : Nat) :
    Span.scan levelOperators 0 0 i (e.spell place ++ rest) =
      e.operatorSpans place i ++
        Span.scan levelOperators 0 0 (i + (e.glyphs place).length) rest := by
  have skip : ∀ j i rest, Span.scan levelOperators 0 0 i (place j :: rest) =
      Span.scan levelOperators 0 0 (i + 1) rest := by
    intro j i rest
    rw [Span.scan_of_longest?_eq_none (Stretch.longest?_placeholder (hp j) _), Span.deepen,
      if_neg (place_ne hp rfl j), if_neg (place_ne hp rfl j)]
  induction e generalizing rest i with
  | operand j => exact skip j i rest
  | group x _ =>
    rw [spell_group, List.append_assoc, List.singleton_append,
      Span.scan_group Stretch.longest?_open (depthAfter?_spell hp x 0)]
    simp [operatorSpans, glyphs, Nat.add_assoc]
  | unary s x ih =>
    rw [spell_unary, List.cons_append,
      Span.scan_of_longest?_eq_some (Stretch.longest?_sign s _) (by simp)]
    simp [operatorSpans, glyphs, ih, Nat.add_assoc, Nat.add_comm 1]
  | binary op a b iha ihb =>
    have hop : op.symbol ≠ [] := by cases op <;> decide
    have found := Stretch.longest?_symbol op fun _ => head?_spell_ne hp b rest
    rw [spell_binary, List.append_assoc, List.append_assoc, iha,
      Span.scan_of_longest?_eq_some found hop, List.drop_left, ihb]
    simp [operatorSpans, glyphs, Nat.add_assoc]
  | call f args _ =>
    have hargs : Bracket.depthAfter? 0 (spellArgs place args) = some 0 :=
      depthAfter?_spellArgs (fun a _ => depthAfter?_spell hp a) 0
    rw [spell_call, List.append_assoc, List.cons_append, skip, List.singleton_append,
      Span.scan_group Stretch.longest?_open hargs]
    simp [operatorSpans, glyphs, spellArgs, Nat.add_assoc, Nat.add_comm 1]

theorem operators_spell (e : Expr) :
    Stretch.operators (e.spell place) = e.operatorSpans place 0 := by
  have := scan_spell hp e [] 0
  rw [List.append_nil] at this
  rw [Stretch.operators_eq_scan, this]
  simp [Span.scan]

end Expr

end Formulary
