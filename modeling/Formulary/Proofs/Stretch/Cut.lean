import Formulary.Proofs.Expr.Spelling
import Formulary.Proofs.Span.Scan
import Formulary.Skeleton.Stretch

/-! # Cutting stretches

A stretch is cut at spans that stand in it.  The pieces and the operators between them are the
stretch again, and where it is known what the stretch is made of, the pieces are known too.
-/

namespace Formulary

open Glyph (plain)

namespace Mark

def glyph (m : Mark) : Glyph :=
  ⟨m.char, if m.isPlace then some m.token else none⟩

@[simp] theorem char_glyph (m : Mark) : m.glyph.char = m.char := rfl

theorem glyph_of_not_isPlace {m : Mark} (h : isPlaceholder m.char = false) :
    m.glyph = plain m.char := by
  simp [glyph, isPlace, h, plain]

end Mark

/-- The spans of operators that stand between pieces, when the first piece begins at `i`. -/
def Span.ofPieces {α : Type} (i : Nat) (head : List α) : List (List Char × List α) → List Span
  | [] => []
  | (op, body) :: tail =>
    ⟨i + head.length, op⟩ :: ofPieces (i + head.length + op.length) body tail

theorem Span.ofPieces_append {α : Type} (f : Char → α) (i : Nat) (head : List α)
    (tail : List (List Char × List α)) (op : List Char) (body : List α) :
    ofPieces i head (tail ++ [(op, body)]) =
      ofPieces i head tail ++
        [⟨i + (head ++ tail.flatMap fun p => p.1.map f ++ p.2).length, op⟩] := by
  induction tail generalizing i head with
  | nil => simp [ofPieces]
  | cons p tail ih =>
    simp only [List.cons_append, ofPieces, ih, List.flatMap_cons, List.length_append,
      List.length_map]
    congr 4
    omega

theorem Span.ofPieces_cons {α : Type} (i : Nat) (x : α) (head : List α)
    (tail : List (List Char × List α)) :
    ofPieces i (x :: head) tail = ofPieces (i + 1) head tail := by
  cases tail with
  | nil => rfl
  | cons p tail => simp only [ofPieces, List.length_cons, Nat.add_assoc, Nat.add_comm 1]

namespace Stretch

/-- The glyphs of a stretch. -/
def glyphs (s : Stretch) : List Glyph :=
  s.marks.map Mark.glyph

theorem chars_eq_map_glyphs (s : Stretch) : s.chars = s.glyphs.map (·.char) := by
  simp [chars, glyphs, Function.comp_def]

@[simp] theorem glyphs_drop (k : Nat) (s : Stretch) : (s.drop k).glyphs = s.glyphs.drop k := by
  simp [drop, glyphs]

@[simp] theorem glyphs_take (k : Nat) (s : Stretch) : (s.take k).glyphs = s.glyphs.take k := by
  simp [take, glyphs]

/-- The operator and what follows it up to the next cut. -/
def Segment.glyphs (seg : Segment) : List Glyph :=
  seg.op.map plain ++ seg.body.glyphs

/-- Characters that are no placeholders have plain glyphs. -/
theorem map_glyph_eq_map_plain {marks : List Mark} {cs : List Char}
    (h : marks.map (·.char) = cs) (hc : ∀ c ∈ cs, isPlaceholder c = false) :
    marks.map Mark.glyph = cs.map plain := by
  subst h
  rw [List.map_map]
  refine List.map_congr_left fun m hm => ?_
  exact Mark.glyph_of_not_isPlace (hc _ (List.mem_map_of_mem hm))

/-! ## Nothing is lost -/

/-- The pieces of a stretch, with the operators between them, are the stretch. -/
theorem glyphs_cutFrom {i : Nat} {s : Stretch} {spans : List Span}
    (h : Span.Fits i s.chars spans)
    (hops : ∀ m ∈ spans, ∀ c ∈ m.op, isPlaceholder c = false) :
    s.glyphs =
      (s.cutFrom i spans).1.glyphs ++ (s.cutFrom i spans).2.flatMap Segment.glyphs := by
  induction spans generalizing i s with
  | nil => simp [cutFrom]
  | cons m ms ih =>
    obtain ⟨xs, ys, hchars, hstart, hrest⟩ := h
    obtain ⟨hop, hops⟩ := List.forall_mem_cons.1 hops
    have width : m.start - i = xs.length := by omega
    obtain ⟨front, back, hmarks, hfront, hback⟩ := List.map_eq_append_iff.1 hchars
    obtain ⟨before, operator, rfl, hbefore, hoperator⟩ := List.map_eq_append_iff.1 hfront
    have len₁ : before.length = xs.length := by simpa using congrArg List.length hbefore
    have len₂ : operator.length = m.op.length := by simpa using congrArg List.length hoperator
    have rest : ((s.drop xs.length).drop m.op.length).marks = back := by
      simp [drop, hmarks, ← len₁, ← len₂]
    have key := @ih m.stop ((s.drop xs.length).drop m.op.length)
      (by simpa [chars, rest, hback] using hrest) hops
    simp only [cutFrom, width, List.flatMap_cons, Segment.glyphs]
    have hrestGlyphs : ((s.drop xs.length).drop m.op.length).glyphs = back.map Mark.glyph := by
      simp only [glyphs, rest]
    rw [List.append_assoc, ← key, hrestGlyphs, ← map_glyph_eq_map_plain hoperator hop]
    simp [glyphs, take, hmarks, ← len₁]

theorem map_op_cutFrom (i : Nat) (s : Stretch) (spans : List Span) :
    (s.cutFrom i spans).2.map (·.op) = spans.map (·.op) := by
  induction spans generalizing i s with
  | nil => rfl
  | cons m ms ih => simp [cutFrom, ih]

theorem not_isPlaceholder_of_mem_levelOperators {op : List Char} (h : op ∈ levelOperators) :
    ∀ c ∈ op, isPlaceholder c = false :=
  forall_not_isPlaceholder_of_mem (by rfl) h

theorem operators_eq_scan (text : List Char) :
    operators text = Span.scan levelOperators 0 0 0 text := by
  simp [operators, Span.findAll]

/-- Some of the operators of a text. -/
theorem fits_operators (text : List Char) (p : Span → Bool) :
    Span.Fits 0 text ((operators text).filter p) := by
  rw [operators_eq_scan]
  exact (Span.fits_scan 0 0 text).filter p

theorem op_mem_levelOperators {text : List Char} {m : Span} (h : m ∈ operators text) :
    m.op ∈ levelOperators :=
  Span.op_mem_of_mem_scan h

/-- The pieces between some of the operators of a stretch, with these operators, are the
stretch. -/
theorem glyphs_cut (s : Stretch) (p : Span → Bool) :
    s.glyphs =
      (s.cut ((operators s.chars).filter p)).1.glyphs ++
        (s.cut ((operators s.chars).filter p)).2.flatMap Segment.glyphs :=
  glyphs_cutFrom (fits_operators s.chars p) fun _ hm =>
    not_isPlaceholder_of_mem_levelOperators (op_mem_levelOperators (List.mem_filter.1 hm).1)

theorem exists_span_of_mem_cut {s : Stretch} {spans : List Span} {seg : Segment}
    (h : seg ∈ (s.cut spans).2) : ∃ m ∈ spans, m.op = seg.op := by
  have : seg.op ∈ spans.map (·.op) := by
    rw [← map_op_cutFrom 0 s spans]
    exact List.mem_map_of_mem h
  obtain ⟨m, hm, e⟩ := List.mem_map.1 this
  exact ⟨m, hm, e⟩

/-- Segments that all begin with one operator. -/
theorem flatMap_glyphs_of_op {op : List Char} {segs : List Segment}
    (h : ∀ seg ∈ segs, seg.op = op) {bodies : List (List Glyph)}
    (hbodies : segs.map (·.body.glyphs) = bodies) :
    segs.flatMap Segment.glyphs = bodies.flatMap fun gs => op.map plain ++ gs := by
  subst hbodies
  induction segs with
  | nil => rfl
  | cons seg segs ih =>
    obtain ⟨hop, hops⟩ := List.forall_mem_cons.1 h
    simp [ih hops, Segment.glyphs, hop]

theorem op_eq_of_mem_cut {s : Stretch} {op : List Char} {seg : Segment}
    (h : seg ∈ (s.cut ((operators s.chars).filter (·.op == op))).2) : seg.op = op := by
  obtain ⟨m, hm, e⟩ := exists_span_of_mem_cut h
  rw [← e]
  exact eq_of_beq (List.mem_filter.1 hm).2

/-! ## What the pieces are -/

/-- If a stretch is made of pieces with operators between them, then cutting it at these operators
gives the pieces. -/
theorem cutFrom_ofPieces {i : Nat} {s : Stretch} {head : List Glyph}
    {tail : List (List Char × List Glyph)}
    (h : s.glyphs = head ++ tail.flatMap fun p => p.1.map plain ++ p.2) :
    (s.cutFrom i (Span.ofPieces i head tail)).1.glyphs = head ∧
      (s.cutFrom i (Span.ofPieces i head tail)).2.map (fun seg => (seg.op, seg.body.glyphs)) =
        tail := by
  induction tail generalizing i s head with
  | nil => simpa [Span.ofPieces, cutFrom] using h
  | cons p tail ih =>
    obtain ⟨op, body⟩ := p
    have rest : ((s.drop head.length).drop op.length).glyphs =
        body ++ tail.flatMap fun p => p.1.map plain ++ p.2 := by
      simp [h]
    obtain ⟨hb, ht⟩ := @ih (i + head.length + op.length) _ _ rest
    simp only [Span.ofPieces, cutFrom, Nat.add_sub_cancel_left, List.map_cons]
    refine ⟨by simp [h], ?_⟩
    rw [show Span.stop ⟨i + head.length, op⟩ = i + head.length + op.length from rfl, hb, ht]

theorem cut_ofPieces {s : Stretch} {head : List Glyph} {tail : List (List Char × List Glyph)}
    (h : s.glyphs = head ++ tail.flatMap fun p => p.1.map plain ++ p.2) :
    (s.cut (Span.ofPieces 0 head tail)).1.glyphs = head ∧
      (s.cut (Span.ofPieces 0 head tail)).2.map (fun seg => (seg.op, seg.body.glyphs)) = tail :=
  cutFrom_ofPieces h

end Stretch

end Formulary
