import Formulary.Proofs.Span.First
import Formulary.Proofs.Stretch.Cut

/-! # Cutting keeps brackets balanced

A stretch with balanced brackets is cut only where they are all closed, so that every piece is
balanced again, whichever of its operators it is cut at.  If it is cut at all of them, the operators
that are left in a piece stand in brackets.
-/

namespace Formulary

open Formulary.Bracket (Balanced)

namespace Span

variable {candidates : List (List Char)} {i : Nat} {cs xs ys : List Char} {m : Span}
  {ms : List Span}

/-! ## Pieces -/

/-- The pieces that spans leave of a text, which begins at `i`: what stands before the first, between
two of them, and behind the last. -/
def pieces : (i : Nat) → List Char → List Span → List (List Char)
  | _, cs, [] => [cs]
  | i, cs, m :: ms =>
    cs.take (m.start - i) :: pieces m.stop (cs.drop (m.start - i + m.op.length)) ms

@[simp] theorem length_pieces (i : Nat) (cs : List Char) (ms : List Span) :
    (pieces i cs ms).length = ms.length + 1 := by
  induction ms generalizing i cs with
  | nil => rfl
  | cons m ms ih => rw [pieces, List.length_cons, ih, List.length_cons]

theorem pieces_cons (hstart : m.start = i + xs.length) (ys : List Char) (ms : List Span) :
    pieces i (xs ++ m.op ++ ys) (m :: ms) = xs :: pieces m.stop ys ms := by
  have width : m.start - i = xs.length := by omega
  rw [pieces, width, ← List.length_append, List.drop_left, List.append_assoc, List.take_left]

/-- What is written in front of a text belongs to its first piece. -/
theorem pieces_append (h : Fits (i + xs.length) ys ms) :
    pieces i (xs ++ ys) ms = (pieces (i + xs.length) ys ms).modifyHead (xs ++ ·) := by
  cases ms with
  | nil => rfl
  | cons m ms =>
    obtain ⟨zs, rest, rfl, hstart, -⟩ := h
    have hstart' : m.start = i + (xs ++ zs).length := by simp [hstart, Nat.add_assoc]
    rw [pieces_cons hstart, List.modifyHead_cons, ← List.append_assoc, ← List.append_assoc,
      pieces_cons hstart']

/-- The pieces with the operators between them are the text. -/
theorem Fits.flatten_pieces (h : Fits i cs ms) :
    (List.zipWith (· ++ ·) (pieces i cs ms) (ms.map (·.op) ++ [[]])).flatten = cs := by
  induction ms generalizing i cs with
  | nil => simp [pieces]
  | cons m ms ih =>
    obtain ⟨xs, ys, rfl, hstart, hrest⟩ := h
    rw [pieces_cons hstart, List.map_cons, List.cons_append, List.zipWith_cons_cons,
      List.flatten_cons, ih hrest]

/-! ## Pieces of a scan -/

/-- Between candidates whose own brackets are balanced, a scan of a balanced text leaves balanced
pieces, and in these no candidate outside brackets. -/
theorem forall_pieces_scan (hne : [] ∉ candidates) (hops : ∀ op ∈ candidates, Balanced op)
    (h : Balanced cs) :
    ∀ piece ∈ pieces i cs (scan candidates 0 0 i cs),
      Balanced piece ∧ ∀ k, ¬FreeAt candidates 0 piece k := by
  induction hs : scan candidates 0 0 i cs generalizing i cs with
  | nil =>
    rcases scan_cases hne i cs with ⟨-, hfree⟩ | ⟨xs, m, ys, -, -, -, -, -, hscan⟩
    · rw [pieces, List.forall_mem_singleton]
      exact ⟨h, hfree⟩
    · rw [hs] at hscan
      cases hscan
  | cons m ms ih =>
    rcases scan_cases hne i cs with ⟨hscan, -⟩ | ⟨xs, n, ys, rfl, hstart, hmem, level, hfree, hscan⟩
    · rw [hs] at hscan
      cases hscan
    · rw [hs] at hscan
      obtain ⟨rfl, rfl⟩ := List.cons.inj hscan
      rw [List.append_assoc] at h
      have hxs := h.of_append level
      have hys := (hops m.op hmem).append_iff.1 (hxs.append_iff.1 h)
      rw [pieces_cons hstart]
      exact List.forall_mem_cons.2 ⟨⟨hxs, hfree⟩, ih hys rfl⟩

/-- Where fewer spans are cut at, pieces grow together, with the operators that stood between
them. -/
theorem forall_pieces_filter (hfits : Fits i cs ms) (hops : ∀ m ∈ ms, Balanced m.op)
    (h : ∀ piece ∈ pieces i cs ms, Balanced piece) (p : Span → Bool) :
    ∀ piece ∈ pieces i cs (ms.filter p), Balanced piece := by
  induction ms generalizing i cs with
  | nil => exact h
  | cons m ms ih =>
    obtain ⟨xs, ys, rfl, hstart, hrest⟩ := hfits
    obtain ⟨hop, hops⟩ := List.forall_mem_cons.1 hops
    rw [pieces_cons hstart] at h
    obtain ⟨hxs, h⟩ := List.forall_mem_cons.1 h
    have rest := ih hrest hops h
    rw [List.filter_cons]
    split
    · rw [pieces_cons hstart]
      exact List.forall_mem_cons.2 ⟨hxs, rest⟩
    · have hstop : i + (xs ++ m.op).length = m.stop := by
        simp [stop, hstart, Nat.add_assoc]
      have hfits := hrest.filter p
      rw [← hstop] at hfits rest
      rw [pieces_append hfits]
      have hfront := hxs.append_iff.2 hop
      cases hpieces : pieces (i + (xs ++ m.op).length) ys (ms.filter p) with
      | nil => simp
      | cons piece tail =>
        rw [hpieces] at rest
        obtain ⟨hpiece, htail⟩ := List.forall_mem_cons.1 rest
        exact List.forall_mem_cons.2 ⟨hfront.append_iff.2 hpiece, htail⟩

end Span

namespace Stretch

/-! ## Operators of the level -/

theorem nil_notMem_levelOperators : [] ∉ levelOperators := by
  simp [levelOperators]

theorem balanced_of_mem_levelOperators : ∀ op ∈ levelOperators, Balanced op := by
  simp [levelOperators, Bracket.balanced_iff, Bracket.step?]

/-- The characters of operators are operators, so that none of them can be passed over. -/
theorem singleton_mem_levelOperators : ∀ c ∈ levelOperators.flatten, [c] ∈ levelOperators := by
  simp [levelOperators]

/-! ## The cut of a balanced stretch -/

/-- The pieces of a stretch are those of its text. -/
theorem map_chars_cutFrom (i : Nat) (s : Stretch) (spans : List Span) :
    ((s.cutFrom i spans).1 :: (s.cutFrom i spans).2.map (·.body)).map chars =
      Span.pieces i s.chars spans := by
  induction spans generalizing i s with
  | nil => rfl
  | cons m ms ih =>
    have tail := ih m.stop ((s.drop (m.start - i)).drop m.op.length)
    rw [chars_drop, chars_drop, List.drop_drop] at tail
    rw [Span.pieces, ← tail, cutFrom]
    simp

/-- Whichever of its operators a balanced stretch is cut at, all pieces are balanced. -/
theorem balanced_of_mem_cut {s piece : Stretch} (h : Balanced s.chars) (p : Span → Bool)
    (hpiece : piece ∈ (s.cut ((operators s.chars).filter p)).1 ::
      (s.cut ((operators s.chars).filter p)).2.map (·.body)) : Balanced piece.chars := by
  have hmem := List.mem_map_of_mem (f := chars) hpiece
  rw [cut, map_chars_cutFrom, operators_eq_scan] at hmem
  have hops : ∀ m ∈ Span.scan levelOperators 0 0 0 s.chars, Balanced m.op := fun m hm =>
    balanced_of_mem_levelOperators m.op (Span.op_mem_of_mem_scan hm)
  have hall := Span.forall_pieces_scan (i := 0) nil_notMem_levelOperators
    balanced_of_mem_levelOperators h
  exact Span.forall_pieces_filter (Span.fits_scan 0 0 s.chars) hops (fun x hx => (hall x hx).1) p _
    hmem

/-- Do the spans cut a text, from `start` to `stop`, at all the operators outside its brackets, so
that the pieces between them are balanced? -/
structure CutsLevel (text : List Char) (start stop : Nat) (spans : List Span) : Prop where
  increasing : spans.Pairwise fun m n => m.start < n.start
  disjoint : spans.Pairwise fun m n => m.stop ≤ n.start
  inside : ∀ m ∈ spans, start ≤ m.start ∧ m.stop ≤ stop
  operator : ∀ m ∈ spans, m.op ∈ levelOperators
  /-- There is a piece before the first operator, one between any two, and one behind the last. -/
  length : (Span.pieces start ((text.take stop).drop start) spans).length = spans.length + 1
  /-- Pieces and operators in turn are the text again. -/
  rebuilt : (List.zipWith (· ++ ·) (Span.pieces start ((text.take stop).drop start) spans)
    (spans.map (·.op) ++ [[]])).flatten = (text.take stop).drop start
  balanced : ∀ piece ∈ Span.pieces start ((text.take stop).drop start) spans, Balanced piece
  /-- Before an operator or a comma of a piece, more brackets are opened than closed. -/
  nested : ∀ piece ∈ Span.pieces start ((text.take stop).drop start) spans, ∀ k c,
    piece[k]? = some c → c ∈ levelOperators.flatten →
      (piece.take k).count ')' < (piece.take k).count '('

/-- If nothing is found in a balanced piece, its operators stand in brackets. -/
theorem nested_of_not_freeAt {piece : List Char} (h : Balanced piece)
    (hfree : ∀ k, ¬Span.FreeAt levelOperators 0 piece k) {k : Nat} {c : Char}
    (hget : piece[k]? = some c) (hc : c ∈ levelOperators.flatten) :
    (piece.take k).count ')' < (piece.take k).count '(' := by
  obtain ⟨hlt, rfl⟩ := List.getElem?_eq_some_iff.1 hget
  refine Nat.lt_of_le_of_ne (h.close_le_open _ (List.take_prefix k piece)) fun level => ?_
  refine hfree k ⟨hlt, by omega, _, singleton_mem_levelOperators _ hc, ?_⟩
  rw [List.drop_eq_getElem_cons hlt]
  exact List.prefix_append [_] _

/-- The operators that are found in a stretch of balanced brackets stand in it in order and apart,
and what they leave of it are balanced pieces, in which operators and commas stand in brackets. -/
theorem cutsLevel_findAll {text : List Char} {start stop : Nat}
    (h : Balanced ((text.take stop).drop start)) :
    CutsLevel text start stop (Span.findAll levelOperators text start stop) := by
  rw [Span.findAll]
  have hfits := @Span.fits_scan levelOperators 0 start ((text.take stop).drop start)
  have hall := Span.forall_pieces_scan (i := start) nil_notMem_levelOperators
    balanced_of_mem_levelOperators h
  have hmem : ∀ m ∈ Span.scan levelOperators 0 0 start ((text.take stop).drop start),
      m.op ∈ levelOperators := fun _ => Span.op_mem_of_mem_scan
  have hlt : ∀ m ∈ Span.scan levelOperators 0 0 start ((text.take stop).drop start),
      m.start < m.stop := fun m hm =>
    Nat.lt_add_of_pos_right (List.length_pos_iff.2 fun hnil =>
      nil_notMem_levelOperators (hnil ▸ hmem m hm))
  refine ⟨?_, hfits.pairwise, fun m hm => ?_, hmem, Span.length_pieces .., hfits.flatten_pieces,
    fun x hx => (hall x hx).1, fun x hx k c hget hc => ?_⟩
  · exact hfits.pairwise.imp_of_mem fun hm _ hle => Nat.lt_of_lt_of_le (hlt _ hm) hle
  · obtain ⟨hstart, hstop⟩ := hfits.inside hm
    have := hlt m hm
    rw [List.length_drop, List.length_take] at hstop
    omega
  · exact nested_of_not_freeAt (hall x hx).1 (hall x hx).2 hget hc

/-- The brackets outside the stretch do not matter. -/
theorem cutsLevel_findAll_unclosed :
    Balanced ['□', '*', '■', '(', '-', '□', ')', '*', '*', '-', '□'] ∧
      CutsLevel ['(', '□', '*', '■', '(', '-', '□', ')', '*', '*', '-', '□', '+'] 1 12
        [⟨2, ['*']⟩, ⟨8, ['*', '*']⟩, ⟨10, ['-']⟩] := by
  have balanced : Balanced ['□', '*', '■', '(', '-', '□', ')', '*', '*', '-', '□'] :=
    Bracket.balanced_iff.2 rfl
  exact ⟨balanced, cutsLevel_findAll balanced⟩

end Stretch

end Formulary
