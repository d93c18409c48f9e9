import Formulary.Proofs.Bracket.Unmatched
import Formulary.Skeleton.Nesting
import Mathlib.Order.Nat

/-! # Which skeletons have balanced brackets

The check of the brackets of a skeleton, said with counts: no prefix closes more brackets than it
opens, no prefix leaves more than two hundred open, and in the end all are closed.  A skeleton that
fails the check fails at the character with which this goes wrong for the first time, or, if only
the end is wrong, at the leftmost bracket that is never closed.
-/

namespace Formulary.Skeleton

variable {opened : List Nat} {cell : Cell} {cells : List Cell}

/-! ## Steps of the check -/

theorem checkNesting_open (ho : cell.char = '(') (h : opened.length < maxNesting) :
    checkNesting opened (cell :: cells) = checkNesting (cell.position :: opened) cells := by
  simp [checkNesting, ho, h]

theorem checkNesting_close {o : Nat} (hc : cell.char = ')') :
    checkNesting (o :: opened) (cell :: cells) = checkNesting opened cells := by
  simp [checkNesting, hc]

theorem checkNesting_of_ne (ho : cell.char ≠ '(') (hc : cell.char ≠ ')') :
    checkNesting opened (cell :: cells) = checkNesting opened cells := by
  simp [checkNesting, ho, hc]

theorem checkNesting_tooDeep (ho : cell.char = '(') (h : maxNesting ≤ opened.length) :
    checkNesting opened (cell :: cells) = .error (.malformed cell.position .nestedTooDeep) := by
  simp [checkNesting, ho, Nat.not_lt.2 h]

theorem checkNesting_notOpened (hc : cell.char = ')') :
    checkNesting [] (cell :: cells) = .error (.malformed cell.position .closedNotOpened) := by
  simp [checkNesting, hc]

theorem checkNesting_notClosed (opened : List Nat) (o : Nat) :
    checkNesting (opened ++ [o]) [] = .error (.malformed o .openedNotClosed) := by
  simp [checkNesting]

/-- The brackets that a text leaves open come to lie on top of those that were open before it. -/
theorem exists_checkNesting_append (top base : List Nat) {d : Nat}
    (h : Bracket.depthAfter? top.length (cells.map (·.char)) = some d)
    (hdeep : ∀ p, p <+: cells.map (·.char) →
      base.length + top.length + p.count '(' ≤ p.count ')' + maxNesting) :
    ∃ left : List Nat, left.length = d ∧
      ∀ rest, checkNesting (top ++ base) (cells ++ rest) = checkNesting (left ++ base) rest := by
  induction cells generalizing top with
  | nil => exact ⟨top, Option.some.inj h, fun _ => rfl⟩
  | cons cell cells ih =>
    rw [List.map_cons] at h hdeep
    obtain ⟨e, he, hrest⟩ := Option.bind_eq_some_iff.1 h
    have hdeep := (Bracket.forall_prefix_cons.1 hdeep).2
    rcases Bracket.step?_eq_some_iff.1 he with ⟨ho, rfl⟩ | ⟨hc, htop⟩ | ⟨ho, hc, rfl⟩
    · simp only [ho, List.count_cons_self, List.count_cons_of_ne (show '(' ≠ ')' by decide)]
        at hdeep
      obtain ⟨left, hleft, hrun⟩ := ih (cell.position :: top) hrest fun p hp => by
        simpa [Nat.add_assoc, Nat.add_comm 1] using hdeep p hp
      refine ⟨left, hleft, fun rest => ?_⟩
      have room := hdeep [] List.nil_prefix
      simp only [List.count_nil] at room
      rw [List.cons_append, checkNesting_open ho (by rw [List.length_append]; omega)]
      exact hrun rest
    · cases top with
      | nil => cases htop
      | cons o top =>
        obtain rfl : top.length = e := Nat.succ.inj htop
        simp only [hc, List.count_cons_self, List.count_cons_of_ne (show ')' ≠ '(' by decide),
          List.length_cons] at hdeep
        obtain ⟨left, hleft, hrun⟩ := ih top hrest fun p hp => by
          have := hdeep p hp
          omega
        refine ⟨left, hleft, fun rest => ?_⟩
        rw [List.cons_append, List.cons_append, checkNesting_close hc]
        exact hrun rest
    · simp only [List.count_cons_of_ne ho, List.count_cons_of_ne hc] at hdeep
      obtain ⟨left, hleft, hrun⟩ := ih top hrest hdeep
      refine ⟨left, hleft, fun rest => ?_⟩
      rw [List.cons_append, checkNesting_of_ne ho hc]
      exact hrun rest

/-! ## Prefixes -/

/-- Does a text close no more brackets than it opens, and leave at most two hundred open? -/
structure InOrder (p : List Char) : Prop where
  close_le_open : p.count ')' ≤ p.count '('
  open_le : p.count '(' ≤ p.count ')' + maxNesting

/-- Are the brackets out of order once the character at `n` has been read? -/
structure BreaksAt (text : List Char) (n : Nat) : Prop where
  lt : n < text.length
  not_inOrder : ¬InOrder (text.take (n + 1))

theorem inOrder_nil : InOrder [] :=
  ⟨Nat.le_refl 0, Nat.zero_le _⟩

theorem inOrder_of_not_breaksAt {text : List Char} {n : Nat} (h : ∀ m < n, ¬BreaksAt text m) :
    ∀ p, p <+: text.take n → InOrder p := by
  intro p hp
  have hlength := hp.length_le
  rw [List.length_take] at hlength
  rw [List.prefix_iff_eq_take, List.take_take, Nat.min_eq_left (by omega)] at hp
  cases hm : p.length with
  | zero =>
    rw [List.length_eq_zero_iff.1 hm]
    exact inOrder_nil
  | succ m =>
    rw [hm] at hp
    by_contra hnot
    exact h m (by omega) ⟨by omega, hp ▸ hnot⟩

theorem inOrder_or_exists_breaksAt (text : List Char) :
    (∀ p, p <+: text → InOrder p) ∨ ∃ n, IsLeast {n | BreaksAt text n} n := by
  classical
  by_cases h : ∃ n, BreaksAt text n
  · exact .inr ⟨Nat.find h, Nat.isLeast_find h⟩
  · have := @inOrder_of_not_breaksAt text text.length fun m _ hm => h ⟨m, hm⟩
    rw [List.take_length] at this
    exact .inl this

theorem depthAfter?_of_inOrder {text : List Char} {d : Nat} (h : ∀ p, p <+: text → InOrder p)
    (hd : text.count '(' = d + text.count ')') : Bracket.depthAfter? 0 text = some d :=
  Bracket.depthAfter?_eq_some_iff.2
    ⟨fun p hp => by simpa using (h p hp).close_le_open, by omega⟩

/-- As long as the brackets are in order, the check keeps those that are open. -/
theorem exists_checkBrackets_append {s : Skeleton} {front back : List Cell}
    (hcells : s.cells = front ++ back) (h : ∀ p, p <+: front.map (·.char) → InOrder p) :
    ∃ left : List Nat,
      left.length + (front.map (·.char)).count ')' = (front.map (·.char)).count '(' ∧
        s.checkBrackets = checkNesting left back := by
  obtain ⟨d, hd⟩ := Nat.exists_eq_add_of_le' (h _ List.prefix_rfl).close_le_open
  obtain ⟨left, rfl, hrun⟩ := exists_checkNesting_append [] [] (depthAfter?_of_inOrder h hd)
    fun p hp => by simpa using (h p hp).open_le
  refine ⟨left, hd.symm, ?_⟩
  rw [checkBrackets, hcells]
  simpa using hrun back

/-! ## The outcome -/

/-- A character behind which the brackets are out of order is a bracket that is opened too deep, or
one that is not open. -/
theorem checkNesting_of_not_inOrder {front : List Char}
    (hopened : opened.length + front.count ')' = front.count '(') (hfront : InOrder front)
    (hbreak : ¬InOrder (front ++ [cell.char])) :
    checkNesting opened (cell :: cells) = .error (.malformed cell.position
      (if cell.char = '(' then .nestedTooDeep else .closedNotOpened)) := by
  obtain ⟨hclose, hopen⟩ := hfront
  by_cases ho : cell.char = '('
  · rw [if_pos ho]
    refine checkNesting_tooDeep ho (Nat.le_of_not_lt fun hroom => hbreak ⟨?_, ?_⟩)
    all_goals
      simp only [ho, List.count_append, List.count_singleton, beq_iff_eq, Char.reduceEq, if_true,
        if_false]
      omega
  · rw [if_neg ho]
    by_cases hc : cell.char = ')'
    · have hnil : opened = [] := by
        refine List.length_eq_zero_iff.1 (Nat.eq_zero_of_not_pos fun hpos => hbreak ⟨?_, ?_⟩)
        all_goals
          simp only [hc, List.count_append, List.count_singleton, beq_iff_eq, Char.reduceEq,
            if_true, if_false]
          omega
      rw [hnil]
      exact checkNesting_notOpened hc
    · refine absurd ⟨?_, ?_⟩ hbreak
      all_goals simpa [ho, hc]

theorem checkBrackets_of_breaksAt {s : Skeleton} {n : Nat}
    (h : IsLeast {n | BreaksAt s.chars n} n) :
    s.checkBrackets = .error (.malformed (s.position n)
      (if s.chars[n]? = some '(' then .nestedTooDeep else .closedNotOpened)) := by
  obtain ⟨⟨hlt, hbreak⟩, hmin⟩ := h
  have before := inOrder_of_not_breaksAt fun m hm hbm => Nat.not_le_of_lt hm (hmin hbm)
  have hlt' : n < s.cells.length := by simpa [chars] using hlt
  have hcells : s.cells = s.cells.take n ++ s.cells[n] :: s.cells.drop (n + 1) := by
    rw [List.getElem_cons_drop, List.take_append_drop]
  have hchars : s.chars.take n = (s.cells.take n).map (·.char) := by rw [chars, List.map_take]
  have hchar : s.chars[n] = s.cells[n].char := List.getElem_map _
  have hposition : s.position n = s.cells[n].position := by
    rw [position, List.getElem?_eq_getElem hlt']
  rw [List.take_succ_eq_append_getElem hlt, hchar, hchars] at hbreak
  rw [hchars] at before
  obtain ⟨left, hleft, hcheck⟩ := exists_checkBrackets_append hcells before
  rw [hcheck, checkNesting_of_not_inOrder hleft (before _ List.prefix_rfl) hbreak, hposition]
  simp only [List.getElem?_eq_getElem hlt, hchar, Option.some.injEq]

theorem checkBrackets_of_inOrder {s : Skeleton} (h : ∀ p, p <+: s.chars → InOrder p)
    (htotal : s.chars.count '(' = s.chars.count ')') : s.checkBrackets = .ok () := by
  obtain ⟨left, hleft, hcheck⟩ := exists_checkBrackets_append (List.append_nil s.cells).symm h
  obtain rfl : left = [] := List.length_eq_zero_iff.1 (by rw [← chars] at hleft; omega)
  exact hcheck

theorem checkBrackets_of_not_closed {s : Skeleton} (h : ∀ p, p <+: s.chars → InOrder p)
    (htotal : s.chars.count '(' ≠ s.chars.count ')') :
    ∃ i, IsLeast {i | Bracket.Unmatched s.chars i} i ∧
      s.checkBrackets = .error (.malformed (s.position i) .openedNotClosed) := by
  have hle := (h _ List.prefix_rfl).close_le_open
  obtain ⟨d, hd⟩ := Nat.exists_eq_add_of_lt (Nat.lt_of_le_of_ne hle htotal.symm)
  obtain ⟨xs, ys, hchars, hxs, hys⟩ :=
    Bracket.exists_outermost (depthAfter?_of_inOrder h (d := d + 1) (by omega))
  obtain ⟨front, rest, hcells, rfl, hrest⟩ := List.map_eq_append_iff.1 hchars
  obtain ⟨cell, back, rfl, hopen, rfl⟩ := List.map_eq_cons_iff.1 hrest
  have hbalanced := (Bracket.depthAfter?_eq_some_iff.1 hxs).2
  have hposition : s.position front.length = cell.position := by
    simp [position, hcells]
  refine ⟨front.length, ?_, ?_⟩
  · rw [hchars, ← List.length_map (·.char)]
    exact Bracket.isLeast_unmatched hxs hys
  · -- below the bracket nothing is open, and nothing that follows closes it
    obtain ⟨left, hleft, hcheck⟩ := exists_checkBrackets_append hcells fun p hp =>
      h p (hp.trans (hchars ▸ List.prefix_append _ _))
    obtain rfl : left = [] := List.length_eq_zero_iff.1 (by omega)
    obtain ⟨top, -, hrun⟩ := exists_checkNesting_append [] [cell.position] hys
      fun p hp => by
        have hprefix : front.map (·.char) ++ '(' :: p <+: s.chars := by
          rw [hchars, List.prefix_append_right_inj, List.prefix_cons_inj]
          exact hp
        have := (h _ hprefix).open_le
        simp only [List.count_append, List.count_cons_self,
          List.count_cons_of_ne (show '(' ≠ ')' by decide)] at this
        simp only [List.length_singleton, List.length_nil]
        omega
    have hend := hrun []
    rw [List.append_nil, List.nil_append, checkNesting_notClosed] at hend
    rw [hcheck, checkNesting_open hopen (by decide), hend, hposition]

/-- The check accepts a skeleton if no bracket is closed that is not open, at most two hundred are
open at once, and all are closed in the end. -/
theorem checkBrackets_eq_ok_iff {s : Skeleton} :
    s.checkBrackets = .ok () ↔
      (∀ p, p <+: s.chars → InOrder p) ∧ s.chars.count '(' = s.chars.count ')' := by
  refine ⟨fun hok => ?_, fun ⟨h, htotal⟩ => checkBrackets_of_inOrder h htotal⟩
  rcases inOrder_or_exists_breaksAt s.chars with h | ⟨n, hn⟩
  · refine ⟨h, ?_⟩
    by_contra htotal
    obtain ⟨i, -, herr⟩ := checkBrackets_of_not_closed h htotal
    rw [hok] at herr
    cases herr
  · have herr := checkBrackets_of_breaksAt hn
    rw [hok] at herr
    cases herr

/-- The check fails at the first character with which the brackets are out of order, and if there is
none, at the leftmost bracket that is never closed. -/
theorem checkBrackets_outcome (s : Skeleton) :
    (s.checkBrackets = .ok () ↔
      (∀ p, p <+: s.chars → InOrder p) ∧ s.chars.count '(' = s.chars.count ')') ∧
    ∀ err, s.checkBrackets = .error err ↔
      (∃ n, IsLeast {n | BreaksAt s.chars n} n ∧
        err = .malformed (s.position n)
          (if s.chars[n]? = some '(' then .nestedTooDeep else .closedNotOpened)) ∨
      ((∀ p, p <+: s.chars → InOrder p) ∧ s.chars.count '(' ≠ s.chars.count ')' ∧
        ∃ i, IsLeast {i | Bracket.Unmatched s.chars i} i ∧
          err = .malformed (s.position i) .openedNotClosed) := by
  refine ⟨checkBrackets_eq_ok_iff, fun err => ⟨fun herr => ?_, ?_⟩⟩
  · rcases inOrder_or_exists_breaksAt s.chars with h | ⟨n, hn⟩
    · have htotal : s.chars.count '(' ≠ s.chars.count ')' := by
        intro htotal
        rw [checkBrackets_of_inOrder h htotal] at herr
        cases herr
      obtain ⟨i, hi, hfail⟩ := checkBrackets_of_not_closed h htotal
      exact .inr ⟨h, htotal, i, hi, Except.error.inj (herr.symm.trans hfail)⟩
    · exact .inl ⟨n, hn, Except.error.inj (herr.symm.trans (checkBrackets_of_breaksAt hn))⟩
  · rintro (⟨n, hn, rfl⟩ | ⟨h, htotal, i, hi, rfl⟩)
    · exact checkBrackets_of_breaksAt hn
    · obtain ⟨j, hj, hfail⟩ := checkBrackets_of_not_closed h htotal
      rwa [hi.unique hj]

end Formulary.Skeleton
