import Formulary.Proofs.Expr.Completeness
import Formulary.Proofs.Expr.Soundness
import Formulary.Proofs.Skeleton.Nesting
import Formulary.Skeleton.OfFormula

/-! # What is read from a skeleton

A skeleton is read as a tree exactly when the grammar derives it from that tree, its placeholders in
order, and neither brackets nor tree are too deep.  In particular no skeleton has two derivations.
-/

namespace Formulary

namespace Skeleton

/-- The placeholder number `k` of a skeleton; any placeholder if there are not so many. -/
def placeholderAt (s : Skeleton) (k : Nat) : Char :=
  (s.chars.filter isPlaceholder).getD k '□'

theorem isPlaceholder_placeholderAt (s : Skeleton) (k : Nat) :
    isPlaceholder (s.placeholderAt k) = true := by
  rw [placeholderAt, List.getD_eq_getElem?_getD]
  cases h : (s.chars.filter isPlaceholder)[k]? with
  | none => rfl
  | some c => exact (List.mem_filter.1 (List.mem_of_getElem? h)).2

end Skeleton

/-! ## The glyphs of a skeleton -/

namespace Mark

theorem map_char_ofCells (count : Nat) (cells : List Cell) :
    (ofCells count cells).map (·.char) = cells.map (·.char) := by
  induction cells generalizing count with
  | nil => rfl
  | cons cell cells ih => simp [ofCells, ih]

/-- The placeholders are numbered in order. -/
theorem filterMap_token_ofCells (count : Nat) (cells : List Cell) :
    ((ofCells count cells).map glyph).filterMap Glyph.token =
      List.range' count ((cells.map (·.char)).countP isPlaceholder) := by
  induction cells generalizing count with
  | nil => rfl
  | cons cell cells ih =>
    simp only [ofCells, List.map_cons, List.filterMap_cons, ih]
    cases h : isPlaceholder cell.char <;> simp [glyph, isPlace, h, List.range'_succ]

theorem marked_glyph (marks : List Mark) : Glyph.Marked (marks.map glyph) := by
  intro g hg
  obtain ⟨m, _, rfl⟩ := List.mem_map.1 hg
  cases h : isPlaceholder m.char <;> simp [glyph, isPlace, h]

/-- The cell of a mark. -/
def cell (m : Mark) : Cell :=
  ⟨m.char, m.position⟩

theorem map_cell_ofCells (count : Nat) (cells : List Cell) :
    (ofCells count cells).map cell = cells := by
  induction cells generalizing count with
  | nil => rfl
  | cons cell cells ih => rw [ofCells, List.map_cons, ih]; rfl

/-- A placeholder has the number of its token among the placeholders. -/
theorem cell_of_mem_ofCells {count : Nat} {cells : List Cell} {m : Mark}
    (h : m ∈ ofCells count cells) (hplace : m.isPlace = true) :
    count ≤ m.token ∧
      (cells.filter (isPlaceholder ·.char))[m.token - count]? = some m.cell := by
  induction cells generalizing count with
  | nil => cases h
  | cons cell cells ih =>
    rcases List.mem_cons.1 h with rfl | h
    · have hcell : isPlaceholder cell.char = true := hplace
      simp [hcell, Mark.cell]
    · obtain ⟨hle, hget⟩ := ih h
      cases hcell : isPlaceholder cell.char with
      | false => simpa [hcell] using And.intro hle hget
      | true =>
        simp only [hcell, if_true] at hle hget
        obtain ⟨k, hk⟩ := Nat.exists_eq_add_of_le hle
        have shift : m.token - count = (m.token - (count + 1)) + 1 := by omega
        refine ⟨by omega, ?_⟩
        simp [hcell, shift, hget]

theorem getElem?_of_mem_ofCells {count : Nat} {cells : List Cell} {m : Mark}
    (h : m ∈ ofCells count cells) (hplace : m.isPlace = true) :
    count ≤ m.token ∧
      ((cells.map (·.char)).filter isPlaceholder)[m.token - count]? = some m.char := by
  obtain ⟨hle, hget⟩ := cell_of_mem_ofCells h hplace
  have chars : (cells.map (·.char)).filter isPlaceholder =
      (cells.filter (isPlaceholder ·.char)).map (·.char) := List.filter_map
  refine ⟨hle, ?_⟩
  rw [chars, List.getElem?_map, hget]
  rfl

end Mark

namespace Stretch

theorem chars_ofSkeleton (s : Skeleton) : (ofSkeleton s).chars = s.chars :=
  Mark.map_char_ofCells 0 s.cells

theorem tokens_ofSkeleton (s : Skeleton) :
    (ofSkeleton s).glyphs.filterMap Glyph.token = List.range s.placeholderCount := by
  rw [List.range_eq_range']
  exact Mark.filterMap_token_ofCells 0 s.cells

end Stretch

namespace Expr

theorem labelled_ofSkeleton (s : Skeleton) :
    Labelled s.placeholderAt (Stretch.ofSkeleton s).glyphs := by
  intro g hg i hi
  obtain ⟨m, hm, rfl⟩ := List.mem_map.1 hg
  cases hplace : m.isPlace with
  | false => simp [Mark.glyph, hplace] at hi
  | true =>
    obtain rfl : m.token = i := by simpa [Mark.glyph, hplace] using hi
    have hget : (s.chars.filter isPlaceholder)[m.token]? = some m.char :=
      (Mark.getElem?_of_mem_ofCells hm hplace).2
    rw [Skeleton.placeholderAt, List.getD_eq_getElem?_getD, hget]
    rfl

/-- The glyphs of a skeleton are those of a tree if its characters are and the tree has the tokens
in order. -/
theorem glyphs_eq_ofSkeleton_iff {s : Skeleton} {e : Expr} :
    e.glyphs s.placeholderAt = (Stretch.ofSkeleton s).glyphs ↔
      e.spell s.placeholderAt = s.chars ∧ e.tokenOrder = List.range s.placeholderCount := by
  rw [spell, ← Stretch.chars_ofSkeleton, Stretch.chars_eq_map_glyphs, ← filterMap_token_glyphs,
    ← Stretch.tokens_ofSkeleton]
  constructor
  · intro h
    rw [h]
    exact ⟨rfl, rfl⟩
  · rintro ⟨hchars, htokens⟩
    exact (marked_glyphs s.isPlaceholder_placeholderAt e).ext (Mark.marked_glyph _) hchars htokens

/-! ## Reading -/

/-- As many placeholders as tokens of the tree stand in its spelling. -/
theorem countP_spell {place : Nat → Char} (hp : ∀ i, isPlaceholder (place i) = true) (e : Expr) :
    (e.spell place).countP isPlaceholder = e.tokenOrder.length := by
  rw [spell, (marked_glyphs hp e).countP_chars, filterMap_token_glyphs]

/-- The placeholders of a spelling are those that `place` gives. -/
theorem exists_place_of_mem_spell {place : Nat → Char} (hp : ∀ i, isPlaceholder (place i) = true)
    {e : Expr} {c : Char} (hc : c ∈ e.spell place) (h : isPlaceholder c = true) :
    ∃ i, c = place i := by
  obtain ⟨g, hg, rfl⟩ := List.mem_map.1 hc
  have marked := marked_glyphs hp e g hg
  obtain ⟨i, hi⟩ := Option.isSome_iff_exists.1 (marked.trans h)
  exact ⟨i, labelled_glyphs e g hg i hi⟩

theorem nesting_le_of_prefixes {place : Nat → Char} (hp : ∀ i, isPlaceholder (place i) = true)
    {e : Expr} {n : Nat} (h : ∀ p, p <+: e.spell place → p.count '(' ≤ p.count ')' + n) :
    e.nesting ≤ n := by
  obtain ⟨p, hpre, hcount⟩ := exists_prefix_nesting hp e
  have := h p hpre
  omega

theorem derives_of_ofSkeleton {s : Skeleton} {tokens : List Token} {e : Expr}
    (h : ofSkeleton s tokens = .ok e) :
    s.placeholderCount = tokens.length ∧ s.checkBrackets = .ok () ∧
      Derives s.placeholderAt .sum (Stretch.ofSkeleton s) e := by
  unfold ofSkeleton at h
  split at h
  · next hcount =>
    obtain ⟨_, hbrackets, h⟩ := bind_eq_ok_iff.1 h
    obtain ⟨b, hread, h⟩ := bind_eq_ok_iff.1 h
    cases h
    exact ⟨hcount, hbrackets, read_sound _ _ _ (labelled_ofSkeleton s) hread⟩
  · cases h

theorem ofSkeleton_of_derives {s : Skeleton} {tokens : List Token} {e : Expr}
    (hcount : s.placeholderCount = tokens.length) (hbrackets : s.checkBrackets = .ok ())
    (hd : Derives s.placeholderAt .sum (Stretch.ofSkeleton s) e)
    (hn : e.nesting ≤ Skeleton.maxNesting) : ofSkeleton s tokens = .ok e := by
  have hread := read_complete s.isPlaceholder_placeholderAt _ _ _ hd (Nat.lt_succ_of_le hn)
  simp only [ofSkeleton, hcount, if_true, hbrackets, ok_bind, hread]
  rfl

theorem tokenOrder_of_ofSkeleton {s : Skeleton} {tokens : List Token} {e : Expr}
    (h : ofSkeleton s tokens = .ok e) : e.tokenOrder = List.range tokens.length := by
  obtain ⟨hcount, _, hd⟩ := derives_of_ofSkeleton h
  rw [← hcount]
  exact (glyphs_eq_ofSkeleton_iff.1 hd.glyphs).2

/-- Is the formula cut into these tokens and read as this tree? -/
def OfFormula (formula : String) (tokens : List Token) (e : Expr) : Prop :=
  ∃ s, Skeleton.ofFormula formula = .ok (s, tokens) ∧ ofSkeleton s tokens = .ok e

/-- A skeleton within the limits is read as any tree that it is the spelling of. -/
theorem ofSkeleton_of_spell {s : Skeleton} {tokens : List Token} {e : Expr} (hwf : e.WellFormed)
    (hchars : e.spell s.placeholderAt = s.chars) (htokens : e.tokenOrder = List.range tokens.length)
    (hnesting : ∀ p, p <+: s.chars → p.count '(' ≤ p.count ')' + Skeleton.maxNesting)
    (hheight : e.height ≤ maxHeight) : ofSkeleton s tokens = .ok e := by
  have hp := s.isPlaceholder_placeholderAt
  have hcount : s.placeholderCount = tokens.length := by
    rw [Skeleton.placeholderCount, ← hchars, countP_spell hp, htokens, List.length_range]
  have hglyphs := glyphs_eq_ofSkeleton_iff.2 ⟨hchars, hcount.symm ▸ htokens⟩
  have hbalanced : s.checkBrackets = .ok () := by
    obtain ⟨hclosed, hall⟩ := Bracket.depthAfter?_eq_some_iff.1 (depthAfter?_spell hp e 0)
    rw [hchars] at hclosed hall
    refine Skeleton.checkBrackets_eq_ok_iff.2 ⟨fun p hpre => ⟨?_, hnesting p hpre⟩, ?_⟩
    · simpa using hclosed p hpre
    · simpa using hall
  exact ofSkeleton_of_derives hcount hbalanced ⟨hwf, Level.sum_le _, hglyphs, hheight⟩
    (nesting_le_of_prefixes hp (hchars ▸ hnesting))

/-- Only the characters of a skeleton, and how many tokens there are, matter to what is read. -/
theorem ofSkeleton_of_chars {s s' : Skeleton} {tokens tokens' : List Token} {e : Expr}
    (hchars : s'.chars = s.chars) (hlength : tokens'.length = tokens.length)
    (h : ofSkeleton s tokens = .ok e) : ofSkeleton s' tokens' = .ok e := by
  obtain ⟨hcount, hbrackets, hd⟩ := derives_of_ofSkeleton h
  obtain ⟨hspell, horder⟩ := glyphs_eq_ofSkeleton_iff.1 hd.glyphs
  have hnesting := (Skeleton.checkBrackets_eq_ok_iff.1 hbrackets).1
  have place : s'.placeholderAt = s.placeholderAt := by
    funext k
    rw [Skeleton.placeholderAt, hchars, Skeleton.placeholderAt]
  refine ofSkeleton_of_spell hd.wellFormed ?_ ?_ ?_ hd.height
  · rw [place, hspell, hchars]
  · rw [horder, hcount, hlength]
  · rw [hchars]
    exact fun p hpre => (hnesting p hpre).2

/-- What is read from a skeleton is the one tree that the grammar derives it from: well formed, with
the skeleton as its spelling, the tokens in order, brackets nested at most two hundred deep and at
most five hundred and twelve nodes on a path. -/
theorem ofSkeleton_eq_ok_iff (s : Skeleton) (tokens : List Token) (e : Expr) :
    ofSkeleton s tokens = .ok e ↔
      e.WellFormed ∧ e.spell s.placeholderAt = s.chars ∧
        e.tokenOrder = List.range tokens.length ∧
        (∀ p, p <+: s.chars → p.count '(' ≤ p.count ')' + 200) ∧ e.height ≤ 512 := by
  constructor
  · intro h
    obtain ⟨hcount, hbrackets, hd⟩ := derives_of_ofSkeleton h
    obtain ⟨hchars, htokens⟩ := glyphs_eq_ofSkeleton_iff.1 hd.glyphs
    have hnesting := (Skeleton.checkBrackets_eq_ok_iff.1 hbrackets).1
    exact ⟨hd.wellFormed, hchars, hcount ▸ htokens, fun p hpre => (hnesting p hpre).2, hd.height⟩
  · rintro ⟨hwf, hchars, htokens, hnesting, hheight⟩
    exact ofSkeleton_of_spell hwf hchars htokens hnesting hheight

end Expr

end Formulary
