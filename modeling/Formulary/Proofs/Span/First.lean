import Formulary.Proofs.Span.Scan
import Mathlib.Order.Bounds.Basic

/-! # The first operator at the current level

A search for operators stops at the first place where as many brackets have been closed as opened
and a candidate stands, and takes the longest of the candidates there.  A bracket that is closed
without having been opened counts as well: the depth is below zero behind it, until another one is
opened.  All operators of a stretch are found by searching again from the end of each.
-/

namespace Formulary.Span

variable {candidates : List (List Char)} {d : Int} {i k : Nat} {c : Char} {cs : List Char}

/-! ## The head of a scan -/

/-- Does a candidate stand at index `k` of a text that begins at depth `d`, and is the depth zero
there? -/
structure FreeAt (candidates : List (List Char)) (d : Int) (cs : List Char) (k : Nat) : Prop where
  lt : k < cs.length
  depth : d + (cs.take k).count '(' = (cs.take k).count ')'
  stands : ∃ op ∈ candidates, op <+: cs.drop k

theorem freeAt_zero :
    FreeAt candidates d (c :: cs) 0 ↔ d = 0 ∧ ∃ op ∈ candidates, op <+: c :: cs := by
  constructor
  · rintro ⟨-, depth, stands⟩
    exact ⟨by simpa using depth, stands⟩
  · rintro ⟨rfl, stands⟩
    exact ⟨Nat.zero_lt_succ _, rfl, stands⟩

theorem freeAt_succ :
    FreeAt candidates d (c :: cs) (k + 1) ↔ FreeAt candidates (deepen d c) cs k := by
  have depth : d + ((c :: cs).take (k + 1)).count '(' = ((c :: cs).take (k + 1)).count ')' ↔
      deepen d c + (cs.take k).count '(' = (cs.take k).count ')' := by
    by_cases ho : c = '('
    · simp [deepen, ho]
      omega
    · by_cases hc : c = ')'
      · simp [deepen, hc]
        omega
      · simp [deepen, ho, hc]
  constructor
  · rintro ⟨hlt, hd, stands⟩
    exact ⟨Nat.lt_of_succ_lt_succ hlt, depth.1 hd, stands⟩
  · rintro ⟨hlt, hd, stands⟩
    exact ⟨Nat.succ_lt_succ hlt, depth.2 hd, stands⟩

theorem FreeAt.append {xs : List Char} (h : FreeAt candidates d xs k) (ys : List Char) :
    FreeAt candidates d (xs ++ ys) k := by
  obtain ⟨hlt, depth, op, hmem, hpre⟩ := h
  have htake : (xs ++ ys).take k = xs.take k := List.take_append_of_le_length (Nat.le_of_lt hlt)
  have hdrop : (xs ++ ys).drop k = xs.drop k ++ ys :=
    List.drop_append_of_le_length (Nat.le_of_lt hlt)
  refine ⟨?_, by rwa [htake], op, hmem, ?_⟩
  · rw [List.length_append]
    exact Nat.lt_add_right _ hlt
  · rw [hdrop]
    exact hpre.trans (List.prefix_append _ _)

theorem head?_scan_cons :
    (scan candidates 0 d i (c :: cs)).head? =
      match if d = 0 then longest? candidates (c :: cs) else none with
      | some op => some ⟨i, op⟩
      | none => (scan candidates 0 (deepen d c) (i + 1) cs).head? := by
  rw [scan]
  split <;> simp_all

/-- Is it the first place of a text where a candidate stands at depth zero, with the longest
candidate there, or nothing if there is no such place?  The text begins at index `i`. -/
def IsFirstSpan (candidates : List (List Char)) (d : Int) (i : Nat) (cs : List Char) :
    Option Span → Prop
  | none => ∀ k, ¬FreeAt candidates d cs k
  | some m => ∃ k, IsLeast {k | FreeAt candidates d cs k} k ∧
      m.start = i + k ∧ longest? candidates (cs.drop k) = some m.op

/-- A character at which no operator stands is passed over. -/
theorem IsFirstSpan.cons (hfree : ¬FreeAt candidates d (c :: cs) 0) {o : Option Span}
    (h : IsFirstSpan candidates (deepen d c) (i + 1) cs o) :
    IsFirstSpan candidates d i (c :: cs) o := by
  cases o with
  | none =>
    intro k hk
    cases k with
    | zero => exact hfree hk
    | succ k => exact h k (freeAt_succ.1 hk)
  | some m =>
    obtain ⟨k, ⟨hk, hleast⟩, hstart, hop⟩ := h
    refine ⟨k + 1, ⟨freeAt_succ.2 hk, fun j hj => ?_⟩, by omega, hop⟩
    cases j with
    | zero => exact absurd hj hfree
    | succ j => exact Nat.succ_le_succ (hleast (freeAt_succ.1 hj))

theorem isFirstSpan_head?_scan (candidates : List (List Char)) (d : Int) (i : Nat)
    (cs : List Char) :
    IsFirstSpan candidates d i cs (scan candidates 0 d i cs).head? := by
  induction cs generalizing d i with
  | nil => exact fun k h => Nat.not_lt_zero k h.lt
  | cons c cs ih =>
    rw [head?_scan_cons]
    by_cases hfree : FreeAt candidates d (c :: cs) 0
    · obtain ⟨rfl, stands⟩ := freeAt_zero.1 hfree
      cases hop : longest? candidates (c :: cs) with
      | none =>
        obtain ⟨op, hmem, hpre⟩ := stands
        exact absurd hpre (longest?_eq_none_iff.1 hop op hmem)
      | some op =>
        rw [if_pos rfl]
        exact ⟨0, ⟨hfree, fun j _ => Nat.zero_le j⟩, rfl, hop⟩
    · have hnone : (if d = 0 then longest? candidates (c :: cs) else none) = none := by
        rw [ite_eq_right_iff, longest?_eq_none_iff]
        exact fun hd op hmem hpre => hfree (freeAt_zero.2 ⟨hd, op, hmem, hpre⟩)
      rw [hnone]
      exact (ih (deepen d c) (i + 1)).cons hfree

/-! ## The search -/

/-- Does the candidate stand in the text at index `i`, entirely before `stop`? -/
structure StandsAt (candidates : List (List Char)) (text : List Char) (stop i : Nat)
    (op : List Char) : Prop where
  mem : op ∈ candidates
  stands : op <+: text.drop i
  le_stop : i + op.length ≤ stop

/-- Is there a candidate at index `i` of the characters from `start` to `stop`, with as many
brackets opened as closed before it? -/
structure OperatorAt (candidates : List (List Char)) (text : List Char) (start stop i : Nat) :
    Prop where
  le : start ≤ i
  lt : i < min stop text.length
  level : ((text.take i).drop start).count '(' = ((text.take i).drop start).count ')'
  stands : ∃ op, StandsAt candidates text stop i op

theorem standsAt_iff {text op : List Char} {stop : Nat} (hi : i < stop) :
    StandsAt candidates text stop i op ↔ op ∈ candidates ∧ op <+: (text.take stop).drop i := by
  have inside : op <+: (text.take stop).drop i ↔ op <+: text.drop i ∧ i + op.length ≤ stop := by
    rw [List.drop_take, List.prefix_take_iff]
    exact and_congr_right fun _ => by omega
  rw [inside]
  exact ⟨fun h => ⟨h.mem, h.stands, h.le_stop⟩, fun ⟨hmem, hpre, hle⟩ => ⟨hmem, hpre, hle⟩⟩

theorem longest?_drop_eq_some_iff {text op : List Char} {stop : Nat} (hi : i < stop) :
    longest? candidates ((text.take stop).drop i) = some op ↔
      StandsAt candidates text stop i op ∧
        ∀ x, StandsAt candidates text stop i x → x.length ≤ op.length := by
  simp only [longest?_eq_some_iff, standsAt_iff hi, and_imp]

theorem freeAt_iff {text : List Char} {start stop : Nat} :
    FreeAt candidates 0 ((text.take stop).drop start) k ↔
      OperatorAt candidates text start stop (start + k) := by
  have lt : k < ((text.take stop).drop start).length ↔ start + k < min stop text.length := by
    rw [List.length_drop, List.length_take]
    omega
  have before (hk : start + k < stop) :
      ((text.take stop).drop start).take k = (text.take (start + k)).drop start := by
    rw [List.take_drop, List.take_take, Nat.min_eq_left (Nat.le_of_lt hk)]
  constructor
  · rintro ⟨hlt, depth, op, hmem, hpre⟩
    have hk := lt.1 hlt
    rw [before (by omega)] at depth
    rw [List.drop_drop] at hpre
    exact ⟨Nat.le_add_right start k, hk, by omega, op, (standsAt_iff (by omega)).2 ⟨hmem, hpre⟩⟩
  · rintro ⟨-, hk, level, op, stands⟩
    obtain ⟨hmem, hpre⟩ := (standsAt_iff (by omega)).1 stands
    refine ⟨lt.2 hk, ?_, op, hmem, by rwa [List.drop_drop]⟩
    rw [before (by omega)]
    omega

theorem find?_spec (candidates : List (List Char)) (text : List Char) (start stop : Nat) :
    match find? candidates text start stop with
    | none => ∀ i, ¬OperatorAt candidates text start stop i
    | some m => IsLeast {i | OperatorAt candidates text start stop i} m.start ∧
        longest? candidates ((text.take stop).drop m.start) = some m.op := by
  have first := isFirstSpan_head?_scan candidates 0 start ((text.take stop).drop start)
  rw [find?, findAll]
  cases hhead : (scan candidates 0 0 start ((text.take stop).drop start)).head? with
  | none =>
    rw [hhead] at first
    intro i hi
    obtain ⟨k, rfl⟩ := Nat.exists_eq_add_of_le hi.le
    exact first k (freeAt_iff.2 hi)
  | some m =>
    rw [hhead] at first
    obtain ⟨k, ⟨hk, hmin⟩, hstart, hop⟩ := first
    rw [List.drop_drop, ← hstart] at hop
    refine ⟨⟨?_, fun i hi => ?_⟩, hop⟩
    · rw [hstart]
      exact freeAt_iff.1 hk
    · obtain ⟨j, rfl⟩ := Nat.exists_eq_add_of_le hi.le
      rw [hstart]
      exact Nat.add_le_add_left (hmin (freeAt_iff.2 hi)) start

/-- A search returns the first place at the current level where a candidate stands, with the
longest candidate that stands there, and nothing if there is no such place. -/
theorem find_first_operator (candidates : List (List Char)) (text : List Char) (start stop : Nat) :
    (∀ i op, find? candidates text start stop = some ⟨i, op⟩ ↔
      IsLeast {i | OperatorAt candidates text start stop i} i ∧
        StandsAt candidates text stop i op ∧
        ∀ x, StandsAt candidates text stop i x → x.length ≤ op.length) ∧
    (find? candidates text start stop = none ↔
      ∀ i, ¬OperatorAt candidates text start stop i) := by
  have spec := find?_spec candidates text start stop
  cases hfind : find? candidates text start stop with
  | none =>
    rw [hfind] at spec
    exact ⟨fun i op => iff_of_false (by simp) fun h => spec i h.1.1, iff_of_true rfl spec⟩
  | some m =>
    rw [hfind] at spec
    obtain ⟨least, hop⟩ := spec
    have hlt : m.start < stop := Nat.lt_of_lt_of_le least.1.lt (Nat.min_le_left _ _)
    refine ⟨fun i op => ⟨?_, ?_⟩, iff_of_false (by simp) fun h => h _ least.1⟩
    · rintro ⟨⟩
      exact ⟨least, (longest?_drop_eq_some_iff hlt).1 hop⟩
    · rintro ⟨hi, hlongest⟩
      obtain rfl := least.unique hi
      rw [(longest?_drop_eq_some_iff hlt).2 hlongest] at hop
      cases hop
      rfl

/-- Behind a bracket that is closed too early the next one has to be opened first. -/
example : find? [['+']] ['□', ')', '+', '(', '+', '□'] 0 6 = some ⟨4, ['+']⟩ := by decide

/-! ## Searching again -/

theorem scan_eq_of_head? (hne : [] ∉ candidates) {m : Span}
    (h : (scan candidates 0 d i cs).head? = some m) :
    scan candidates 0 d i cs = m :: scan candidates 0 0 m.stop (cs.drop (m.stop - i)) := by
  induction cs generalizing d i with
  | nil => cases h
  | cons c cs ih =>
    rw [scan] at h ⊢
    split at h
    · next hop =>
      exact absurd (longest?_eq_some (Option.ite_none_right_eq_some.1 hop).2).1 hne
    · next x op hop =>
      cases h
      have width : Span.stop ⟨i, x :: op⟩ = i + (op.length + 1) := rfl
      rw [width, Nat.add_sub_cancel_left, List.drop_succ_cons, scan_skip, Nat.add_assoc,
        Nat.add_comm 1]
    · next hnone =>
      have first := isFirstSpan_head?_scan candidates (deepen d c) (i + 1) cs
      rw [h] at first
      obtain ⟨k, -, hstart, -⟩ := first
      have width : m.stop - i = m.stop - (i + 1) + 1 := by
        rw [stop]
        omega
      rw [width, List.drop_succ_cons]
      exact ih h

/-- A scan lists nothing if no candidate stands outside brackets; else it lists the first that does,
and goes on behind it. -/
theorem scan_cases (hne : [] ∉ candidates) (i : Nat) (cs : List Char) :
    (scan candidates 0 0 i cs = [] ∧ ∀ k, ¬FreeAt candidates 0 cs k) ∨
    ∃ xs m ys, cs = xs ++ m.op ++ ys ∧ m.start = i + xs.length ∧ m.op ∈ candidates ∧
      xs.count '(' = xs.count ')' ∧ (∀ k, ¬FreeAt candidates 0 xs k) ∧
      scan candidates 0 0 i cs = m :: scan candidates 0 0 m.stop ys := by
  have first := isFirstSpan_head?_scan candidates 0 i cs
  cases hhead : (scan candidates 0 0 i cs).head? with
  | none =>
    rw [hhead] at first
    exact .inl ⟨List.head?_eq_none_iff.1 hhead, first⟩
  | some m =>
    rw [hhead] at first
    obtain ⟨k, ⟨hfree, hleast⟩, hstart, hop⟩ := first
    obtain ⟨hmem, ys, hys⟩ := longest?_eq_some hop
    have hlength : (cs.take k).length = k := List.length_take_of_le (Nat.le_of_lt hfree.lt)
    have hcs : cs = cs.take k ++ m.op ++ ys := by
      rw [List.append_assoc, hys, List.take_append_drop]
    have level : (cs.take k).count '(' = (cs.take k).count ')' := by
      have depth := hfree.depth
      omega
    refine .inr ⟨cs.take k, m, ys, hcs, by rw [hstart, hlength], hmem, level, fun j hj => ?_, ?_⟩
    · -- a candidate in the front would come before the first one
      have here := hj.append (m.op ++ ys)
      rw [← List.append_assoc, ← hcs] at here
      exact Nat.not_le_of_lt (hlength ▸ hj.lt) (hleast here)
    · have width : m.stop - i = k + m.op.length := by
        rw [stop, hstart]
        omega
      rw [scan_eq_of_head? hne hhead, width, ← List.drop_drop, ← hys, List.drop_left]

/-- The operators that are listed are those that searches find, each from the end of the one
before. -/
theorem findAll_eq (hne : [] ∉ candidates) (text : List Char) (start stop : Nat) :
    findAll candidates text start stop =
      match find? candidates text start stop with
      | none => []
      | some m => m :: findAll candidates text m.stop stop := by
  have spec := find?_spec candidates text start stop
  cases hfind : find? candidates text start stop with
  | none => exact List.head?_eq_none_iff.1 hfind
  | some m =>
    rw [hfind] at spec
    have hle : start ≤ m.start := spec.1.1.le
    have width : start + (m.stop - start) = m.stop := by
      rw [Span.stop]
      omega
    rw [findAll, scan_eq_of_head? hne hfind, List.drop_drop, width]
    rfl

end Formulary.Span
