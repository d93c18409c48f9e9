import Formulary.Proofs.Bracket.Depth
import Mathlib.Data.List.Induction
import Mathlib.Order.Bounds.Basic

/-! # Brackets that are never closed

An opening bracket is unmatched if the text behind it closes no more brackets than it opens.  Where
a text leaves brackets open, the leftmost of them is the last one that is opened at depth zero.
-/

namespace Formulary.Bracket

variable {text xs ys : List Char} {d : Nat}

/-- Is there an opening bracket at `i` to which no closing one belongs? -/
structure Unmatched (text : List Char) (i : Nat) : Prop where
  opener : text[i]? = some '('
  unmatched : ∀ j, matching text i .forward ≠ .ok j

theorem unmatched_append_iff :
    Unmatched (xs ++ '(' :: ys) xs.length ↔ ∃ d, depthAfter? 0 ys = some d := by
  have hopener : (xs ++ '(' :: ys)[xs.length]? = some '(' := by simp
  have hsearch : (∀ j, matching (xs ++ '(' :: ys) xs.length .forward ≠ .ok j) ↔
      closing? '(' ')' 0 ys = none := by
    simp only [matching, Direction.opener, Direction.closer, Direction.ahead, List.drop_left,
      distance?, if_true]
    cases closing? '(' ')' 0 ys <;> simp
  rw [← closing?_eq_none_iff, ← hsearch]
  exact ⟨fun h => h.unmatched, fun h => ⟨hopener, h⟩⟩

/-- Where a text leaves brackets open, there is one that is opened at depth zero and never
closed. -/
theorem exists_outermost (h : depthAfter? 0 text = some (d + 1)) :
    ∃ xs ys, text = xs ++ '(' :: ys ∧ depthAfter? 0 xs = some 0 ∧ depthAfter? 0 ys = some d := by
  induction text using List.reverseRecOn generalizing d with
  | nil => cases h
  | append_singleton cs c ih =>
    rw [depthAfter?_append] at h
    obtain ⟨e, he, hstep⟩ := Option.bind_eq_some_iff.1 h
    cases e with
    | zero =>
      -- the bracket opened last is the only one that is open
      rcases step?_eq_some_iff.1 (by simpa using hstep) with ⟨rfl, hd⟩ | ⟨-, hd⟩ | ⟨-, -, hd⟩
      · obtain rfl : d = 0 := by omega
        exact ⟨cs, [], rfl, he, rfl⟩
      · omega
      · omega
    | succ e =>
      obtain ⟨xs, ys, rfl, hxs, hys⟩ := ih he
      refine ⟨xs, ys ++ [c], by simp, hxs, ?_⟩
      simpa [hys] using step?_of_succ (by simpa using hstep)

/-- What a text opens and closes again is matched. -/
theorem not_unmatched {front back : List Char} (h : depthAfter? 0 (front ++ '(' :: back) = some 0)
    (ys : List Char) : ¬Unmatched (front ++ '(' :: back ++ ys) front.length := by
  rw [List.append_assoc, List.cons_append, unmatched_append_iff]
  rintro ⟨d, hd⟩
  obtain ⟨prefixes, total⟩ := depthAfter?_eq_some_iff.1 h
  have outer := prefixes front (List.prefix_append _ _)
  have inner := (depthAfter?_eq_some_iff.1 hd).1 back (List.prefix_append _ _)
  simp only [List.count_append, List.count_cons, beq_iff_eq, Char.reduceEq, if_true, if_false]
    at total
  omega

theorem isLeast_unmatched (hxs : depthAfter? 0 xs = some 0) (hys : depthAfter? 0 ys = some d) :
    IsLeast {i | Unmatched (xs ++ '(' :: ys) i} xs.length := by
  refine ⟨unmatched_append_iff.2 ⟨d, hys⟩, fun i hi => Nat.le_of_not_lt fun hlt => ?_⟩
  have hget : xs[i] = '(' := by
    simpa [List.getElem?_append_left hlt, List.getElem?_eq_getElem hlt] using hi.opener
  obtain ⟨front, back, rfl, rfl⟩ : ∃ front back, xs = front ++ '(' :: back ∧ front.length = i := by
    refine ⟨xs.take i, xs.drop (i + 1), ?_, List.length_take_of_le (Nat.le_of_lt hlt)⟩
    rw [← hget, List.getElem_cons_drop, List.take_append_drop]
  exact not_unmatched hxs _ hi

end Formulary.Bracket
