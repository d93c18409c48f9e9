import Formulary.Proofs.Bracket.Depth

/-! # Brackets that belong together

The search for the bracket that belongs to a given one, said with counts: a group has as many
opening brackets as closing ones, and more of them wherever it is cut before its end.  Read backward
a group is a group again, with the two brackets exchanged, so the searches from its two ends find
each other.
-/

namespace Formulary.Bracket

variable {opener closer : Char} {d k : Nat} {cs : List Char}

/-- The search ends where, for the first time, one bracket more has been closed than opened. -/
theorem closing?_eq_some_iff (hne : opener ≠ closer) :
    closing? opener closer d cs = some k ↔
      k < cs.length ∧
        (cs.take (k + 1)).count closer = d + (cs.take (k + 1)).count opener + 1 ∧
        ∀ p, p <+: cs.take k → p.count closer ≤ d + p.count opener := by
  induction cs generalizing d k with
  | nil => simp [closing?]
  | cons c cs ih =>
    by_cases hc : c = closer
    · subst hc
      cases d with
      | zero =>
        cases k with
        | zero => simp [closing?, hne.symm, List.prefix_nil]
        | succ k =>
          refine iff_of_false (by simp [closing?]) fun h => ?_
          have := (forall_prefix_cons.1 (by simpa using h.2.2)).2 [] List.nil_prefix
          simp [hne.symm] at this
      | succ d =>
        cases k with
        | zero =>
          simp [closing?, hne.symm]
        | succ k =>
          simp [closing?, ih, forall_prefix_cons, hne.symm]
          grind
    · by_cases ho : c = opener
      · subst ho
        cases k with
        | zero => simp [closing?, hc]
        | succ k =>
          simp [closing?, ih, forall_prefix_cons, hc]
          grind
      · cases k with
        | zero => simp [closing?, hc, ho]
        | succ k =>
          simp [closing?, ih, forall_prefix_cons, hc, ho]

/-! ## Groups -/

/-- A text that closes as many brackets as it opens, but fewer wherever it is cut before its
end. -/
structure IsGroup (opener closer : Char) (cs : List Char) : Prop where
  even : cs.count opener = cs.count closer
  opened : ∀ p, p <+: cs → p ≠ [] → p ≠ cs → p.count closer < p.count opener

theorem prefix_take_iff_ne {p : List Char} (hk : k < cs.length) :
    p <+: cs.take k ↔ p <+: cs.take (k + 1) ∧ p ≠ cs.take (k + 1) := by
  rw [List.take_succ_eq_append_getElem hk, List.prefix_concat_iff]
  constructor
  · intro h
    refine ⟨.inr h, fun heq => ?_⟩
    have := h.length_le
    simp only [heq, List.length_append, List.length_take, List.length_singleton] at this
    omega
  · rintro ⟨h | h, hne⟩
    · exact absurd h hne
    · exact h

theorem isGroup_opener_cons (hne : opener ≠ closer) :
    IsGroup opener closer (opener :: cs) ↔
      cs.count closer = cs.count opener + 1 ∧
        ∀ p, p <+: cs → p ≠ cs → p.count closer ≤ p.count opener := by
  constructor
  · rintro ⟨even, opened⟩
    refine ⟨by simpa [hne] using even.symm, fun p hp hpne => ?_⟩
    have := opened (opener :: p) ((List.prefix_cons_inj _).2 hp) (by simp) (by simpa using hpne)
    simpa [hne, Nat.lt_succ_iff] using this
  · rintro ⟨even, opened⟩
    refine ⟨by simpa [hne] using even.symm, fun p hp hnil hpne => ?_⟩
    obtain rfl | ⟨q, rfl, hq⟩ := List.prefix_cons_iff.1 hp
    · exact absurd rfl hnil
    · have := opened q hq (by simpa using hpne)
      simpa [hne, Nat.lt_succ_iff] using this

/-- A bracket is matched by the last one of a group that it begins. -/
theorem distance?_eq_ok_iff (hne : opener ≠ closer) :
    distance? opener closer cs = .ok k ↔
      0 < k ∧ k < cs.length ∧ IsGroup opener closer (cs.take (k + 1)) := by
  cases cs with
  | nil => simp [distance?]
  | cons c cs =>
    by_cases ho : c = opener
    · subst ho
      cases k with
      | zero =>
        simp only [distance?, if_true, Nat.lt_irrefl, false_and, iff_false]
        split <;> simp
      | succ k =>
        have found : distance? c closer (c :: cs) = .ok (k + 1) ↔
            closing? c closer 0 cs = some k := by
          simp only [distance?, if_true]
          split <;> simp_all
        rw [found, closing?_eq_some_iff hne, List.take_succ_cons, isGroup_opener_cons hne]
        simp only [Nat.zero_add, Nat.zero_lt_succ, true_and, List.length_cons,
          Nat.add_lt_add_iff_right, and_congr_right_iff]
        intro hk _
        simp only [prefix_take_iff_ne hk, and_imp]
    · refine iff_of_false (by simp [distance?, ho]) ?_
      rintro ⟨hk, hlt, -, opened⟩
      have := opened [c] (by simp) (by simp) ?_
      · simp [ho] at this
      · intro h
        have := congrArg List.length h
        simp only [List.length_singleton, List.length_take] at this
        omega

/-- Backward, a group is a group of the exchanged brackets. -/
theorem isGroup_reverse : IsGroup closer opener cs.reverse ↔ IsGroup opener closer cs := by
  have mirrored {opener closer : Char} {cs : List Char} (h : IsGroup opener closer cs) :
      IsGroup closer opener cs.reverse := by
    refine ⟨by simpa using h.even.symm, fun p hp hnil hne => ?_⟩
    obtain ⟨q, hq⟩ := hp
    have split : q.reverse ++ p.reverse = cs := by
      simpa using congrArg List.reverse hq
    have front := h.opened q.reverse ⟨_, split⟩
      (by rintro hq₀; simp_all) (by rintro hq₀; simp_all)
    have even := h.even
    simp only [← split, List.count_append, List.count_reverse] at even front
    omega
  refine ⟨fun h => ?_, mirrored⟩
  simpa using mirrored h

theorem IsGroup.head? (h : IsGroup opener closer cs) (hlen : 1 < cs.length) :
    cs.head? = some opener := by
  cases cs with
  | nil => simp at hlen
  | cons c cs =>
    have hne : [c] ≠ c :: cs := by
      rintro heq
      simp [← heq] at hlen
    have more := h.opened [c] (List.prefix_append [c] cs) (List.cons_ne_nil c []) hne
    have : 0 < [c].count opener := Nat.zero_lt_of_lt more
    simpa [List.count_pos_iff, eq_comm] using this

theorem IsGroup.getLast? (h : IsGroup opener closer cs) (hlen : 1 < cs.length) :
    cs.getLast? = some closer := by
  rw [← List.head?_reverse]
  exact (isGroup_reverse.2 h).head? (by simpa using hlen)

/-! ## Both ends of a group -/

/-- The characters from index `i` to index `j`, both included. -/
def between (text : List Char) (i j : Nat) : List Char :=
  (text.take (j + 1)).drop i

/-- Do the brackets at `i` and `j` belong together? -/
structure Matched (text : List Char) (i j : Nat) : Prop where
  lt : i < j
  opener : text[i]? = some '('
  closer : text[j]? = some ')'
  even : (between text i j).count '(' = (between text i j).count ')'
  opened : ∀ p, p <+: between text i j → p ≠ [] → p ≠ between text i j →
    p.count ')' < p.count '('

theorem matched_iff {text : List Char} {i j : Nat} :
    Matched text i j ↔ i < j ∧ j < text.length ∧ IsGroup '(' ')' (between text i j) := by
  constructor
  · intro h
    exact ⟨h.lt, (List.getElem?_eq_some_iff.1 h.closer).1, h.even, h.opened⟩
  · rintro ⟨hij, hj, group⟩
    have hlen : 1 < (between text i j).length := by
      simp only [between, List.length_drop, List.length_take]
      omega
    have first := group.head? hlen
    have last := group.getLast? hlen
    rw [between, List.head?_drop, List.getElem?_take_of_lt (by omega)] at first
    rw [between, List.getLast?_drop, if_neg (by simp; omega), List.getLast?_take] at last
    rw [if_neg (Nat.succ_ne_zero j), Nat.add_sub_cancel, List.getElem?_eq_getElem hj,
      Option.some_or, ← List.getElem?_eq_getElem hj] at last
    exact ⟨hij, first, last, group.even, group.opened⟩

theorem matching_eq_ok_iff_distance? {text : List Char} {direction : Direction} {start stop : Nat} :
    matching text start direction = .ok stop ↔
      ∃ k, distance? direction.opener direction.closer (direction.ahead text start) = .ok k ∧
        direction.advance start k = stop := by
  unfold matching
  split <;> simp_all

theorem matching_forward_iff {text : List Char} {i j : Nat} :
    matching text i .forward = .ok j ↔ Matched text i j := by
  rw [matching_eq_ok_iff_distance?, matched_iff]
  simp only [Direction.opener, Direction.closer, Direction.ahead, Direction.advance,
    distance?_eq_ok_iff (show '(' ≠ ')' by decide), List.length_drop]
  constructor
  · rintro ⟨k, ⟨hk, hlt, group⟩, rfl⟩
    refine ⟨by omega, by omega, ?_⟩
    rwa [between, Nat.add_assoc, List.drop_take, Nat.add_sub_cancel_left]
  · rintro ⟨hij, hj, group⟩
    refine ⟨j - i, ⟨by omega, by omega, ?_⟩, by omega⟩
    rwa [between, List.drop_take, show j + 1 - i = j - i + 1 by omega] at group

theorem matching_backward_iff {text : List Char} {i j : Nat} :
    matching text j .backward = .ok i ↔ Matched text i j := by
  rw [matching_eq_ok_iff_distance?, matched_iff]
  simp only [Direction.opener, Direction.closer, Direction.ahead, Direction.advance,
    distance?_eq_ok_iff (show ')' ≠ '(' by decide)]
  by_cases hj : j < text.length
  · have length : (text.take (j + 1)).length = j + 1 := List.length_take_of_le hj
    simp only [hj, if_true, List.length_reverse, length, List.take_reverse, isGroup_reverse,
      true_and, between]
    constructor
    · rintro ⟨k, ⟨hk, hlt, group⟩, rfl⟩
      refine ⟨by omega, ?_⟩
      rwa [Nat.add_sub_add_right] at group
    · rintro ⟨hij, group⟩
      refine ⟨j - i, ⟨by omega, by omega, ?_⟩, by omega⟩
      rwa [show j + 1 - (j - i + 1) = i by omega]
  · simp [hj]

/-! ## The counter of a search -/

/-- The values that the counter of open groups takes while a search reads `cs`, one after each
character, up to the zero behind the bracket that is looked for.  It counts in the integers, where
nothing keeps it from falling below zero. -/
def counters (opener closer : Char) : (counter : Int) → List Char → List Int
  | _, [] => []
  | n, c :: cs =>
    if c = opener then (n + 1) :: counters opener closer (n + 1) cs
    else if c = closer then
      (n - 1) :: if n - 1 = 0 then [] else counters opener closer (n - 1) cs
    else n :: counters opener closer n cs

/-- Does a counter with these values come down to zero after `k` positive ones, and stop there?  If
there is no `k`, it stays positive. -/
def FirstZero : Option Nat → List Int → Prop
  | some k, ns => ∃ before, ns = before ++ [0] ∧ before.length = k ∧ ∀ n ∈ before, 0 < n
  | none, ns => ∀ n ∈ ns, 0 < n

namespace FirstZero

variable {o : Option Nat} {ns : List Int}

theorem cons (h : FirstZero o ns) {n : Int} (hn : 0 < n) :
    FirstZero (o.map (· + 1)) (n :: ns) := by
  cases o with
  | none => exact List.forall_mem_cons.2 ⟨hn, h⟩
  | some k =>
    obtain ⟨before, rfl, rfl, hpos⟩ := h
    exact ⟨n :: before, rfl, rfl, List.forall_mem_cons.2 ⟨hn, hpos⟩⟩

theorem nonneg (h : FirstZero o ns) : ∀ n ∈ ns, 0 ≤ n := by
  cases o with
  | none => exact fun n hn => Int.le_of_lt (h n hn)
  | some k =>
    obtain ⟨before, rfl, -, hpos⟩ := h
    intro n hn
    rcases List.mem_append.1 hn with hn | hn
    · exact Int.le_of_lt (hpos n hn)
    · exact Int.le_of_eq (List.mem_singleton.1 hn).symm

/-- Where the counter comes to zero can be read off its last value. -/
theorem eq_ite (h : FirstZero o ns) :
    o = if ns.getLast? = some 0 then some (ns.length - 1) else none := by
  cases o with
  | none =>
    refine (if_neg fun hlast => ?_).symm
    exact Int.lt_irrefl 0 (h 0 (List.mem_of_getLast? hlast))
  | some k =>
    obtain ⟨before, rfl, rfl, -⟩ := h
    simp

end FirstZero

/-- The counter stays positive until the search ends, and ends at zero. -/
theorem firstZero_counters (hne : opener ≠ closer) (d : Nat) (cs : List Char) :
    FirstZero (closing? opener closer d cs) (counters opener closer (d + 1 : Nat) cs) := by
  induction cs generalizing d with
  | nil => exact List.forall_mem_nil _
  | cons c cs ih =>
    by_cases ho : c = opener
    · simpa [closing?, counters, ho, hne] using (ih (d + 1)).cons (by omega)
    · by_cases hc : c = closer
      · cases d with
        | zero => simpa [closing?, counters, hc, hne.symm] using ⟨[], rfl, rfl, by simp⟩
        | succ d =>
          have down : ((d + 1 + 1 : Nat) : Int) - 1 = (d + 1 : Nat) := by omega
          have up : ((d + 1 : Nat) : Int) ≠ 0 := by omega
          subst hc
          rw [closing?, if_pos rfl, counters, if_neg ho, if_pos rfl, down, if_neg up]
          exact (ih d).cons (by omega)
      · simpa [closing?, counters, ho, hc] using (ih d).cons (by omega)

namespace Direction

variable {text : List Char} {start : Nat} {direction : Direction}

/-- The values of the counter of a search from index `start`, which looks for an opening bracket
there first. -/
def counters (text : List Char) (start : Nat) (direction : Direction) : List Int :=
  if text[start]? = some direction.opener then
    Bracket.counters direction.opener direction.closer 0 (direction.ahead text start)
  else []

theorem opener_ne_closer (direction : Direction) : direction.opener ≠ direction.closer := by
  cases direction <;> decide

theorem head?_ahead (direction : Direction) (text : List Char) (start : Nat) :
    (direction.ahead text start).head? = text[start]? := by
  cases direction with
  | forward => exact List.head?_drop
  | backward =>
    by_cases h : start < text.length
    · simp [ahead, h, List.getLast?_take]
    · simp [ahead, h]

theorem firstZero_counters {cs : List Char}
    (h : direction.ahead text start = direction.opener :: cs) :
    FirstZero ((closing? direction.opener direction.closer 0 cs).map (· + 1))
      (direction.counters text start) := by
  have hopener : text[start]? = some direction.opener := by rw [← head?_ahead, h, List.head?_cons]
  have := (Bracket.firstZero_counters direction.opener_ne_closer 0 cs).cons Int.one_pos
  simpa [counters, hopener, h, Bracket.counters] using this

theorem counters_nonneg (direction : Direction) (text : List Char) (start : Nat) :
    ∀ n ∈ direction.counters text start, 0 ≤ n := by
  by_cases h : text[start]? = some direction.opener
  · obtain ⟨cs, hcs⟩ := List.head?_eq_some_iff.1 ((direction.head?_ahead text start).trans h)
    exact (firstZero_counters hcs).nonneg
  · simp [counters, h]

/-- A search is what its counter does. -/
theorem matching_eq_ite (text : List Char) (start : Nat) (direction : Direction) :
    matching text start direction =
      if (direction.counters text start).getLast? = some 0 then
        .ok (direction.advance start ((direction.counters text start).length - 1))
      else .error (.malformed start
        (if text[start]? = some direction.opener then .bracketUnmatched else .bracketExpected)) := by
  by_cases h : text[start]? = some direction.opener
  · obtain ⟨cs, hcs⟩ := List.head?_eq_some_iff.1 ((direction.head?_ahead text start).trans h)
    have found := (firstZero_counters hcs).eq_ite
    rw [matching, hcs, distance?, if_pos rfl, if_pos h]
    by_cases hlast : (direction.counters text start).getLast? = some 0
    · obtain ⟨k, hk, hlength⟩ := Option.map_eq_some_iff.1 (found.trans (if_pos hlast))
      rw [if_pos hlast, hk, ← hlength]
    · rw [if_neg hlast, Option.map_eq_none_iff.1 (found.trans (if_neg hlast))]
  · have hhead : (direction.ahead text start).head? ≠ some direction.opener := by rwa [head?_ahead]
    rw [matching]
    cases hcs : direction.ahead text start with
    | nil => simp [counters, h, distance?]
    | cons c cs =>
      have hc : c ≠ direction.opener := by simpa [hcs] using hhead
      simp [counters, h, distance?, hc]

end Direction

/-- The searches from the two ends of a group find each other, and no search finds anything else:
it fails where it begins.  Its counter of open groups never falls below zero on the way. -/
theorem matching_inverse (text : List Char) :
    (∀ i j, matching text i .forward = .ok j ↔ matching text j .backward = .ok i) ∧
    (∀ i j, matching text i .forward = .ok j ↔ Matched text i j) ∧
    ∀ (direction : Direction) (start : Nat),
      (matching text start direction =
        if (direction.counters text start).getLast? = some 0 then
          .ok (direction.advance start ((direction.counters text start).length - 1))
        else .error (.malformed start
          (if text[start]? = some direction.opener then .bracketUnmatched
            else .bracketExpected))) ∧
      ∀ n ∈ direction.counters text start, 0 ≤ n :=
  ⟨fun _ _ => matching_forward_iff.trans matching_backward_iff.symm,
    fun _ _ => matching_forward_iff,
    fun direction start =>
      ⟨direction.matching_eq_ite text start, direction.counters_nonneg text start⟩⟩

end Formulary.Bracket
