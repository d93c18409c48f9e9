import Formulary.Function.Basic
import Formulary.Proofs.Binary64.Order

/-! # Extreme arguments

Two exact numbers are compared as rationals, and any other two by their nearest floats.  So a float
may be told apart from neither of two exact numbers of which one is less.  But to be less is
transitive all the same, and a scan that goes on with what is less ends at an argument than which
none is less, in whatever order the two kinds come.
-/

namespace Formulary

namespace Number

open Binary64 (unpack)

/-- Where the nearest float of a number stands. -/
def position (x : Number) : Rat :=
  Binary64.position (unpack x.toFloat)

variable {a b c : Number}

theorem isNaN_of_lessThan (h : a.lessThan b = true) :
    a.toFloat.isNaN = false ∧ b.toFloat.isNaN = false := by
  cases a with
  | exact r =>
    cases b with
    | exact s => exact ⟨Binary64.isNaN_ofRat r, Binary64.isNaN_ofRat s⟩
    | real y => exact Binary64.isNaN_of_lt (of_decide_eq_true h)
  | real x => exact Binary64.isNaN_of_lt (of_decide_eq_true h)

/-- A number is less if its nearest float is.  An exact number may also be less than another one
with the same nearest float. -/
theorem lessThan_iff (ha : a.toFloat.isNaN = false) (hb : b.toFloat.isNaN = false) :
    a.lessThan b = true ↔
      a.position < b.position ∨ ∃ r s, a = exact r ∧ b = exact s ∧ r < s := by
  have floats : a.toFloat < b.toFloat ↔ a.position < b.position :=
    Binary64.lt_iff_position ha hb
  cases a with
  | exact r =>
    cases b with
    | exact s =>
      have less : (exact r).position < (exact s).position → r < s := fun h =>
        not_le.1 (mt Binary64.position_ofRat_mono (not_le.2 h))
      simpa [lessThan] using less
    | real y =>
      rw [or_iff_left (by simp), ← floats]
      exact decide_eq_true_iff
  | real x =>
    rw [or_iff_left (by simp), ← floats]
    exact decide_eq_true_iff

theorem position_le_of_lessThan (h : a.lessThan b = true) : a.position ≤ b.position := by
  obtain ⟨ha, hb⟩ := isNaN_of_lessThan h
  rcases (lessThan_iff ha hb).1 h with less | ⟨r, s, rfl, rfl, less⟩
  · exact less.le
  · exact Binary64.position_ofRat_mono less.le

theorem lessThan_irrefl (a : Number) : a.lessThan a = false := by
  refine Bool.eq_false_iff.2 fun h => ?_
  obtain ⟨ha, -⟩ := isNaN_of_lessThan h
  rcases (lessThan_iff ha ha).1 h with less | ⟨r, s, rfl, same, less⟩
  · exact lt_irrefl _ less
  · cases same
    exact lt_irrefl _ less

theorem lessThan_trans (hab : a.lessThan b = true) (hbc : b.lessThan c = true) :
    a.lessThan c = true := by
  obtain ⟨ha, hb⟩ := isNaN_of_lessThan hab
  obtain ⟨-, hc⟩ := isNaN_of_lessThan hbc
  refine (lessThan_iff ha hc).2 ?_
  rcases (lessThan_iff ha hb).1 hab with less | ⟨r, s, rfl, rfl, less⟩
  · exact .inl (less.trans_le (position_le_of_lessThan hbc))
  · rcases (lessThan_iff hb hc).1 hbc with more | ⟨s', t, same, rfl, more⟩
    · exact .inl ((position_le_of_lessThan hab).trans_lt more)
    · cases same
      exact .inr ⟨r, t, rfl, rfl, less.trans more⟩

/-- Numbers of which neither is less have equal floats, up to the sign of zero. -/
theorem toFloat_beq_of_not_lessThan (ha : a.toFloat.isNaN = false) (hb : b.toFloat.isNaN = false)
    (hab : a.lessThan b = false) (hba : b.lessThan a = false) :
    (a.toFloat == b.toFloat) = true := by
  have above : ¬ a.position < b.position := fun h =>
    Bool.eq_false_iff.1 hab ((lessThan_iff ha hb).2 (.inl h))
  have below : ¬ b.position < a.position := fun h =>
    Bool.eq_false_iff.1 hba ((lessThan_iff hb ha).2 (.inl h))
  exact (Binary64.beq_iff_position ha hb).2 (le_antisymm (not_lt.1 below) (not_lt.1 above))

end Number

namespace Function

/-- What a scan ends at that goes on with each number that is better than what it has. -/
def scan (better : Number → Number → Bool) (first : Number) (rest : List Number) : Number :=
  rest.foldl (fun best a => if better a best then a else best) first

section Scan

variable (better : Number → Number → Bool) (irrefl : ∀ a, better a a = false)
  (trans : ∀ {a b c}, better a b = true → better b c = true → better a c = true)

theorem scan_concat (first : Number) (rest : List Number) (a : Number) :
    scan better first (rest ++ [a]) =
      if better a (scan better first rest) then a else scan better first rest :=
  List.foldl_concat _ _ _ _

include irrefl trans

/-- A scan ends at one of the numbers it has seen, and none of these is better. -/
theorem scan_spec (first : Number) (rest : List Number) :
    scan better first rest ∈ first :: rest ∧
      ∀ a ∈ first :: rest, better a (scan better first rest) = false := by
  induction rest using List.reverseRecOn with
  | nil => exact ⟨List.mem_singleton_self first, List.forall_mem_singleton.2 (irrefl first)⟩
  | append_singleton rest a ih =>
    obtain ⟨hmem, hbest⟩ := ih
    rw [scan_concat, ← List.cons_append]
    by_cases h : better a (scan better first rest) = true
    · -- what is better than `a` would have been better than what `a` replaces
      rw [if_pos h]
      refine ⟨List.mem_append_right _ (List.mem_singleton_self a), fun b hb => ?_⟩
      rcases List.mem_append.1 hb with hb | hb
      · exact Bool.eq_false_iff.2 fun hba => Bool.eq_false_iff.1 (hbest b hb) (trans hba h)
      · rw [List.mem_singleton.1 hb]
        exact irrefl a
    · rw [if_neg h]
      refine ⟨List.mem_append_left _ hmem, fun b hb => ?_⟩
      rcases List.mem_append.1 hb with hb | hb
      · exact hbest b hb
      · rw [List.mem_singleton.1 hb]
        exact Bool.eq_false_iff.2 h

/-- A function that scans its arguments gives one of them, than which none is better.  With the
arguments in another order neither result is better than the other. -/
theorem apply_of_scan (f : Function) (unit : AngleUnit)
    (happly : ∀ x xs, f.apply unit (x :: xs) = .ok (scan better x xs)) {xs : List Number}
    (hxs : xs ≠ []) :
    ∃ n ∈ xs, f.apply unit xs = .ok n ∧ (∀ a ∈ xs, better a n = false) ∧
      ∀ ys : List Number, ys.Perm xs →
        ∃ n' ∈ xs, f.apply unit ys = .ok n' ∧ better n n' = false ∧ better n' n = false := by
  obtain ⟨x, xs, rfl⟩ := List.exists_cons_of_ne_nil hxs
  obtain ⟨hmem, hbest⟩ := scan_spec better irrefl trans x xs
  refine ⟨_, hmem, happly x xs, hbest, fun ys hys => ?_⟩
  have hne : ys ≠ [] := fun h => by simp [h] at hys
  obtain ⟨y, ys, rfl⟩ := List.exists_cons_of_ne_nil hne
  obtain ⟨hmem', hbest'⟩ := scan_spec better irrefl trans y ys
  exact ⟨_, hys.subset hmem', happly y ys, hbest' _ (hys.symm.subset hmem),
    hbest _ (hys.subset hmem')⟩

end Scan

/-- `min` and `max` give one of their arguments, as it is, and no argument is less than the least
one, or greater than the greatest one.  In another order of the arguments the value is the same
float, up to the sign of zero. -/
theorem apply_extreme {xs : List Number} (hxs : xs ≠ []) (unit : AngleUnit)
    (number : ∀ x, Number.real x ∈ xs → x.isNaN = false) :
    (∃ n ∈ xs, min.apply unit xs = .ok n ∧ (∀ a ∈ xs, a.lessThan n = false) ∧
      ∀ ys : List Number, ys.Perm xs →
        ∃ n', min.apply unit ys = .ok n' ∧ (n'.toFloat == n.toFloat) = true) ∧
    ∃ n ∈ xs, max.apply unit xs = .ok n ∧ (∀ a ∈ xs, n.lessThan a = false) ∧
      ∀ ys : List Number, ys.Perm xs →
        ∃ n', max.apply unit ys = .ok n' ∧ (n'.toFloat == n.toFloat) = true := by
  have floats : ∀ a ∈ xs, a.toFloat.isNaN = false := by
    intro a ha
    cases a with
    | exact r => exact Binary64.isNaN_ofRat r
    | real y => exact number y ha
  constructor
  · obtain ⟨n, hn, happly, hbest, hperm⟩ :=
      apply_of_scan Number.lessThan Number.lessThan_irrefl Number.lessThan_trans min unit
        (fun _ _ => rfl) hxs
    refine ⟨n, hn, happly, hbest, fun ys hys => ?_⟩
    obtain ⟨n', hn', happly', h, h'⟩ := hperm ys hys
    exact ⟨n', happly', Number.toFloat_beq_of_not_lessThan (floats n' hn') (floats n hn) h' h⟩
  · obtain ⟨n, hn, happly, hbest, hperm⟩ :=
      apply_of_scan (fun a b => b.lessThan a) Number.lessThan_irrefl
        (fun hab hbc => Number.lessThan_trans hbc hab) max unit (fun _ _ => rfl) hxs
    refine ⟨n, hn, happly, hbest, fun ys hys => ?_⟩
    obtain ⟨n', hn', happly', h, h'⟩ := hperm ys hys
    exact ⟨n', happly', Number.toFloat_beq_of_not_lessThan (floats n' hn') (floats n hn) h h'⟩

/-- A float and two exact numbers that have it as their nearest float.  The second exact number is
the least argument as the arguments stand, and the float is in another order. -/
theorem apply_extreme_tie :
    let xs : List Number := [.exact (2 ^ 53 + 1), .real 9007199254740992, .exact (2 ^ 53)]
    (xs ≠ [] ∧ ∀ x, Number.real x ∈ xs → x.isNaN = false) ∧
      min.apply .radian xs = .ok (.exact (2 ^ 53)) ∧
      min.apply .radian [.real 9007199254740992, .exact (2 ^ 53 + 1), .exact (2 ^ 53)] =
        .ok (.real 9007199254740992) ∧
      ∃ n ∈ xs, min.apply .radian xs = .ok n ∧ (∀ a ∈ xs, a.lessThan n = false) ∧
        ∀ ys : List Number, ys.Perm xs →
          ∃ n', min.apply .radian ys = .ok n' ∧ (n'.toFloat == n.toFloat) = true := by
  intro xs
  have hxs : xs ≠ [] := by simp [xs]
  have number : ∀ x, Number.real x ∈ xs → x.isNaN = false := by
    intro x hx
    obtain rfl : x = 9007199254740992 := by simpa [xs] using hx
    decide +kernel
  exact ⟨⟨hxs, number⟩, by decide +kernel, by decide +kernel,
    (apply_extreme hxs .radian number).1⟩

end Function

end Formulary
