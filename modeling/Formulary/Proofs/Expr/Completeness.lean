import Formulary.Proofs.Expr.Cuts
import Formulary.Proofs.Expr.Derivation

/-! # Completeness of reading

Every tree that the grammar derives from a stretch, and that is within the limits, is what is read
from it.  So each level of the reader finds the operands of its chain again, provided that the
reader of what stands in brackets is complete.
-/

namespace Formulary.Expr

open Glyph (plain)

variable {place : Nat → Char} {n : Nat}

/-! ## Sums and products -/

theorem foldLeft_complete {operand : Stretch → Except Error Branch} {segs : List Stretch.Segment}
    {head : Expr} {tail : List (BinOp × Expr)}
    (hsegs : segs.map (fun seg => (seg.op, seg.body.glyphs)) = chainPieces place tail)
    (hread : ∀ p ∈ tail, ∀ s : Stretch, p.2.glyphs place = s.glyphs → operand s = .ok (.of p.2))
    (hheight : (chain head tail).height ≤ maxHeight) :
    foldLeft operand (.of head) segs = .ok (.of (chain head tail)) := by
  induction tail generalizing head segs with
  | nil =>
    obtain rfl : segs = [] := List.map_eq_nil_iff.1 hsegs
    rfl
  | cons p tail ih =>
    obtain ⟨seg, segs, rfl, hseg, hrest⟩ := List.map_eq_cons_iff.1 hsegs
    obtain ⟨hop, hbody⟩ := Prod.mk.inj hseg
    obtain ⟨hp, htail⟩ := List.forall_mem_cons.1 hread
    have low : (binary p.1 head p.2).height ≤ maxHeight :=
      Nat.le_trans (height_le_chain _ tail) hheight
    rw [foldLeft, hop, BinOp.ofSymbol?_symbol]
    simp only [hp _ hbody.symm, ok_bind, Branch.binary_of, node_of low]
    exact ih hrest htail hheight

theorem leftChain_complete {l : Level} (hpow : l ≠ .power) {operand : Stretch → Except Error Branch}
    (hoperand : Complete place l.next n operand) {s : Stretch} {e : Expr}
    (hd : Derives place l s e) (hn : e.nesting < n) :
    leftChain operand s (chainSpans place l 0 e) = .ok (.of e) := by
  obtain ⟨hhead, htail⟩ := operand_chain hpow hd.wellFormed hd.level
  have read : ∀ x, Operand l.next e x → ∀ s : Stretch, x.glyphs place = s.glyphs →
      operand s = .ok (.of x) := fun x hx s hs =>
    hoperand s x ⟨hx.wellFormed, hx.level, hs, Nat.le_trans hx.height hd.height⟩
      (Nat.lt_of_le_of_lt hx.nesting hn)
  obtain ⟨hfirst, hsegs⟩ :=
    Stretch.cut_ofPieces (hd.glyphs.symm.trans (glyphs_eq_chain place l e))
  have whole := chain_chainHead_chainTail l e
  have fold : foldLeft operand (.of (chainHead l e)) _ =
      .ok (.of (chain (chainHead l e) (chainTail l e))) :=
    foldLeft_complete hsegs (fun p hp => read p.2 (htail p hp)) (by rw [whole]; exact hd.height)
  unfold leftChain chainSpans
  simp only [read _ hhead _ hfirst.symm, ok_bind, fold, whole]

theorem product_complete (hp : ∀ i, isPlaceholder (place i) = true)
    {inner : Stretch → Except Error Branch} (hpower : Complete place .power n (power inner)) :
    Complete place .product n (product inner) := by
  intro s e hd hn
  rw [product, hd.chars, productCuts_spell hp hd.wellFormed hd.level]
  exact leftChain_complete (by decide) hpower hd hn

theorem sum_complete (hp : ∀ i, isPlaceholder (place i) = true)
    {inner : Stretch → Except Error Branch} (hproduct : Complete place .product n (product inner)) :
    Complete place .sum n (sum inner) := by
  intro s e hd hn
  rw [sum, hd.chars, commas_spell hp, sumCuts_spell hp hd.wellFormed]
  exact leftChain_complete (by decide) hproduct hd hn

/-! ## Powers -/

namespace Signed

/-- What is kept of signs that have been read: everything but their positions. -/
def factor (x : Signed) : Factor :=
  ⟨x.signs.map (·.2), x.base.tree⟩

theorem sign?_of_glyph_eq {m : Mark} {sign : Sign} (h : m.glyph = plain sign.symbol) :
    m.sign? = some sign := by
  have hchar : m.char = sign.symbol := congrArg Glyph.char h
  rw [Mark.sign?, hchar]
  exact Sign.ofChar?_symbol sign

theorem leadingSigns_eq {s : Stretch} {signs : List Sign} {rest : List Glyph}
    (h : s.glyphs = (signs.map fun sign => plain sign.symbol) ++ rest)
    (hrest : ∀ g, rest.head? = some g → Sign.ofChar? g.char = none) :
    (leadingSigns s).map (·.2) = signs ∧ (s.drop (leadingSigns s).length).glyphs = rest := by
  obtain ⟨marks, stop⟩ := s
  simp only [leadingSigns, Stretch.glyphs, Stretch.drop] at h ⊢
  induction signs generalizing marks with
  | nil =>
    cases marks with
    | nil => simpa using h
    | cons m marks =>
      obtain rfl : rest = (m :: marks).map Mark.glyph := h.symm
      have none : m.sign? = none := hrest m.glyph rfl
      simp [none]
  | cons sign signs ih =>
    obtain ⟨m, marks, rfl, hm, hmarks⟩ := List.map_eq_cons_iff.1 h
    obtain ⟨hsigns, hdrop⟩ := ih marks hmarks
    simp only [List.takeWhile_cons, sign?_of_glyph_eq hm, Option.isSome_some, if_true,
      List.filterMap_cons, Option.map_some, List.map_cons, List.length_cons, List.drop_succ_cons]
    exact ⟨by rw [hsigns], hdrop⟩

/-- An operand, group or call does not begin with a sign. -/
theorem ofChar?_of_primary (hp : ∀ i, isPlaceholder (place i) = true) {e : Expr}
    (h : .primary ≤ e.level) {g : Glyph} (hg : (e.glyphs place).head? = some g) :
    Sign.ofChar? g.char = none := by
  have hplace : ∀ i, Sign.ofChar? (place i) = none := fun i => by
    rw [Sign.ofChar?, if_neg (place_ne hp rfl i), if_neg (place_ne hp rfl i)]
  cases e with
  | operand i =>
    cases hg
    exact hplace i
  | group x =>
    cases hg
    rfl
  | call f args =>
    cases hg
    exact hplace f
  | unary s x => exact absurd h (not_primary_unary s x)
  | binary op a b => exact absurd h (not_primary_binary op a b)

theorem read_complete (hp : ∀ i, isPlaceholder (place i) = true)
    {inner : Stretch → Except Error Branch} (hprimary : Complete place .primary n (primary inner))
    {e : Expr} (hheight : e.height ≤ maxHeight) (hn : e.nesting < n) {f : Factor}
    (hf : Operand .primary e f.base) {s : Stretch} (hs : f.glyphs place = s.glyphs) :
    ∃ x, read inner s = .ok x ∧ x.factor = f := by
  obtain ⟨hsigns, hdrop⟩ :=
    leadingSigns_eq hs.symm fun g hg => ofChar?_of_primary hp hf.level hg
  have hbase := hprimary (s.drop (leadingSigns s).length) f.base
    ⟨hf.wellFormed, hf.level, hdrop.symm, Nat.le_trans hf.height hheight⟩
    (Nat.lt_of_le_of_lt hf.nesting hn)
  refine ⟨⟨leadingSigns s, .of f.base⟩, ?_, by rw [factor, hsigns]; rfl⟩
  simp only [read, hbase, ok_bind, pure_eq_ok]

theorem readSegments_complete (hp : ∀ i, isPlaceholder (place i) = true)
    {inner : Stretch → Except Error Branch} (hprimary : Complete place .primary n (primary inner))
    {e : Expr} (hheight : e.height ≤ maxHeight) (hn : e.nesting < n) {fs : List Factor}
    (hfs : ∀ f ∈ fs, Operand .primary e f.base) {segs : List Stretch.Segment}
    (hsegs : segs.map (fun seg => (seg.op, seg.body.glyphs)) = powerPieces place fs) :
    ∃ xs, readSegments inner segs = .ok xs ∧ xs.map (·.2.factor) = fs := by
  induction fs generalizing segs with
  | nil =>
    obtain rfl : segs = [] := List.map_eq_nil_iff.1 hsegs
    exact ⟨[], rfl, rfl⟩
  | cons f fs ih =>
    obtain ⟨hf, hfs⟩ := List.forall_mem_cons.1 hfs
    obtain ⟨seg, segs, rfl, hseg, hrest⟩ := List.map_eq_cons_iff.1 hsegs
    obtain ⟨x, hx, hfactor⟩ := read_complete hp hprimary hheight hn hf (Prod.mk.inj hseg).2.symm
    obtain ⟨xs, hxs, hfactors⟩ := ih hfs hrest
    refine ⟨(seg.position, x) :: xs, ?_, by simp [hfactor, hfactors]⟩
    simp only [readSegments, hx, hxs, ok_bind, pure_eq_ok]

theorem apply_complete {signs : List (Nat × Sign)} {e : Expr}
    (h : (signed (signs.map (·.2)) e).height ≤ maxHeight) :
    apply signs (.of e) = .ok (.of (signed (signs.map (·.2)) e)) := by
  induction signs with
  | nil => rfl
  | cons p signs ih =>
    have lower : (signed (signs.map (·.2)) e).height ≤ maxHeight :=
      Nat.le_trans (Nat.le_succ _) h
    simp only [apply, ih lower, ok_bind, Branch.unary_of]
    exact node_of h

theorem combine_complete {first : Signed} {rest : List (Nat × Signed)}
    (h : (powers first.factor (rest.map (·.2.factor))).height ≤ maxHeight) :
    combine first rest = .ok (.of (powers first.factor (rest.map (·.2.factor)))) := by
  induction rest generalizing first with
  | nil =>
    rw [combine, ← first.base.of_tree]
    exact apply_complete h
  | cons p rest ih =>
    have below : (binary .pow first.base.tree (powers p.2.factor (rest.map (·.2.factor)))).height ≤
        maxHeight := Nat.le_trans (height_le_signed _ _) h
    have lower : (powers p.2.factor (rest.map (·.2.factor))).height ≤ maxHeight := by
      refine Nat.le_trans ?_ below
      simp only [height]
      omega
    rw [combine, ← first.base.of_tree]
    simp only [ih lower, ok_bind, Branch.binary_of, node_of below]
    exact apply_complete h

end Signed

theorem power_complete (hp : ∀ i, isPlaceholder (place i) = true)
    {inner : Stretch → Except Error Branch} (hprimary : Complete place .primary n (primary inner)) :
    Complete place .power n (power inner) := by
  intro s e hd hn
  obtain ⟨hfirst, hrest⟩ := operand_powers hd.wellFormed hd.level
  obtain ⟨hhead, hsegs⟩ :=
    Stretch.cut_ofPieces (hd.glyphs.symm.trans (glyphs_eq_powers e))
  rw [← powerCuts_spell hp hd.wellFormed hd.level, ← hd.chars] at hhead hsegs
  obtain ⟨first, hread, hfactor⟩ :=
    Signed.read_complete hp hprimary hd.height hn hfirst hhead.symm
  obtain ⟨rest, hreads, hfactors⟩ :=
    Signed.readSegments_complete hp hprimary hd.height hn hrest hsegs
  have whole : powers first.factor (rest.map (·.2.factor)) = e := by
    rw [hfactor, hfactors, powers_firstFactor_exponents]
  have combined : Signed.combine first rest = .ok (.of (powers first.factor _)) :=
   
    Signed.combine_complete (by rw [whole]; exact hd.height)
  unfold power
  simp only [hread, hreads, ok_bind, combined, whole]

/-! ## Operands, groups and calls -/

theorem enclosed_complete {p : Nat} {s : Stretch} {gs : List Glyph}
    (h : s.glyphs = gs ++ [plain ')'])
    (balanced : Bracket.depthAfter? 0 (gs.map (·.char)) = some 0) :
    ∃ body, enclosed p s = .ok body ∧ body.glyphs = gs := by
  have hchars : s.chars = gs.map (·.char) ++ [')'] := by
    rw [Stretch.chars_eq_map_glyphs, h]
    simp
  have found : Bracket.closing? '(' ')' 0 s.chars = some gs.length := by
    rw [hchars, Bracket.closing?_append balanced]
    simp [Bracket.closing?]
  have hlength : s.marks.length = gs.length + 1 := by
    simpa [Stretch.glyphs] using congrArg List.length h
  have last : (s.drop (gs.length + 1)).marks.isEmpty = true := by
    simp [Stretch.drop, hlength]
  refine ⟨s.take gs.length, ?_, by simp [h]⟩
  simp only [enclosed, found, last, if_true]

theorem readAll_complete {inner : Stretch → Except Error Branch}
    (hinner : Complete place .sum n inner) {args : List Expr}
    (hargs : ∀ a ∈ args, a.WellFormed ∧ a.height ≤ maxHeight ∧ a.nesting < n)
    {ss : List Stretch} (hss : ss.map (·.glyphs) = args.map (·.glyphs place)) :
    readAll inner ss = .ok (args.map .of) := by
  induction args generalizing ss with
  | nil =>
    obtain rfl : ss = [] := List.map_eq_nil_iff.1 hss
    rfl
  | cons a args ih =>
    obtain ⟨⟨hwf, hheight, hn⟩, hargs⟩ := List.forall_mem_cons.1 hargs
    obtain ⟨s, ss, rfl, hs, hss⟩ := List.map_eq_cons_iff.1 hss
    have first := hinner s a ⟨hwf, Level.sum_le _, hs.symm, hheight⟩ hn
    simp only [readAll, first, ih hargs hss, ok_bind, pure_eq_ok, List.map_cons]

theorem arguments_complete (hp : ∀ i, isPlaceholder (place i) = true)
    {inner : Stretch → Except Error Branch} (hinner : Complete place .sum n inner)
    {args : List Expr} (hne : args ≠ [])
    (hargs : ∀ a ∈ args, a.WellFormed ∧ a.height ≤ maxHeight ∧ a.nesting < n) {s : Stretch}
    (hs : s.glyphs = glyphsArgs place args) : arguments inner s = .ok (args.map .of) := by
  obtain ⟨a, args, rfl⟩ := List.exists_cons_of_ne_nil hne
  have hchars : s.chars = spellArgs place (a :: args) := by
    rw [Stretch.chars_eq_map_glyphs, hs]
    rfl
  have hmarks : s.marks.isEmpty = false := by
    obtain ⟨c, cs, hspell, _⟩ := exists_head_spell hp a
    rw [spellArgs_cons, hspell] at hchars
    cases hm : s.marks with
    | nil => simp [Stretch.chars, hm] at hchars
    | cons m ms => rfl
  obtain ⟨hhead, hsegs⟩ := Stretch.cut_ofPieces (hs.trans (glyphsArgs_eq_pieces a args))
  rw [← commas_spellArgs hp, ← hchars] at hhead hsegs
  have bodies : (s.cut (Stretch.commas s.chars)).2.map (·.body.glyphs) =
      args.map (·.glyphs place) := by
    have := congrArg (List.map Prod.snd) hsegs
    simpa [argPieces, Function.comp_def] using this
  unfold arguments
  simp only [hmarks, Bool.false_eq_true, if_false]
  exact readAll_complete hinner hargs (by simp [hhead, bodies, Function.comp_def])

/-- The mark whose glyph stands for a token is that token's placeholder. -/
theorem mark_of_glyph_eq {m : Mark} {c : Char} {i : Nat} (h : m.glyph = ⟨c, some i⟩) :
    m.char = c ∧ m.isPlace = true ∧ m.token = i := by
  obtain ⟨hchar, htoken⟩ := Glyph.mk.inj h
  cases hplace : m.isPlace with
  | false => simp [hplace] at htoken
  | true => exact ⟨hchar, rfl, by simpa [hplace] using htoken⟩

theorem primary_complete (hp : ∀ i, isPlaceholder (place i) = true)
    {inner : Stretch → Except Error Branch} (hinner : Complete place .sum n inner) :
    Complete place .primary (n + 1) (primary inner) := by
  rintro ⟨marks, stop⟩ e hd hn
  have hglyphs : marks.map Mark.glyph = e.glyphs place := hd.glyphs.symm
  have hheight := hd.height
  cases e with
  | operand i =>
    obtain ⟨m, rest, rfl, hm, hrest⟩ := List.map_eq_cons_iff.1 hglyphs
    obtain rfl : rest = [] := List.map_eq_nil_iff.1 hrest
    obtain ⟨hchar, hplace, rfl⟩ := mark_of_glyph_eq hm
    have hopen : m.char ≠ '(' := hchar ▸ place_ne hp rfl m.token
    simp only [primary, hopen, hplace, if_false, if_true]
    rfl
  | group x =>
    obtain ⟨m, rest, rfl, hm, hrest⟩ := List.map_eq_cons_iff.1 hglyphs
    have hopen : m.char = '(' := congrArg Glyph.char hm
    have hbehind : (Stretch.drop 1 ⟨m :: rest, stop⟩).glyphs = x.glyphs place ++ [plain ')'] :=
      hrest
    obtain ⟨body, hbody, htext⟩ :=
      @enclosed_complete m.position _ _ hbehind (depthAfter?_spell hp x 0)
    have hx := hinner body x
      ⟨hd.wellFormed, Level.sum_le _, htext.symm, Nat.le_trans (Nat.le_succ _) hheight⟩
      (Nat.lt_of_succ_lt_succ hn)
    simp only [primary, hopen, if_true, hbody, hx, ok_bind, Branch.group_of]
    exact node_of hheight
  | call f args =>
    obtain ⟨m, rest, rfl, hm, hrest⟩ := List.map_eq_cons_iff.1 hglyphs
    obtain ⟨next, rest, rfl, hnext, hrest⟩ := List.map_eq_cons_iff.1 hrest
    obtain ⟨hchar, hplace, rfl⟩ := mark_of_glyph_eq hm
    have hopen : m.char ≠ '(' := hchar ▸ place_ne hp rfl m.token
    have hnextOpen : next.char = '(' := congrArg Glyph.char hnext
    have hbehind : (Stretch.drop 2 ⟨m :: next :: rest, stop⟩).glyphs =
        glyphsArgs place args ++ [plain ')'] := hrest
    obtain ⟨body, hbody, htext⟩ := @enclosed_complete next.position _ _ hbehind
      (depthAfter?_spellArgs (fun a _ => depthAfter?_spell hp a) 0)
    obtain ⟨hne, hwf⟩ := hd.wellFormed
    have hargs := arguments_complete hp hinner hne (fun a ha =>
      ⟨wellFormedArgs_iff.1 hwf a ha,
        Nat.le_trans (height_le_heightList ha) (Nat.le_trans (Nat.le_succ _) hheight),
        Nat.lt_of_le_of_lt (nesting_le_nestingArgs ha) (Nat.lt_of_succ_lt_succ hn)⟩) htext
    simp only [primary, hopen, hplace, hnextOpen, if_false, if_true, hbody, hargs, ok_bind,
      Branch.call_of]
    exact node_of hheight
  | unary s x => exact absurd hd.level (not_primary_unary s x)
  | binary op a b => exact absurd hd.level (not_primary_binary op a b)

/-- Whatever is derived, and nested less deep than may be read, is read. -/
theorem read_complete (hp : ∀ i, isPlaceholder (place i) = true) (depth : Nat) :
    Complete place .sum depth (read depth) := by
  induction depth with
  | zero => exact fun _ _ _ hn => absurd hn (Nat.not_lt_zero _)
  | succ depth ih =>
    exact sum_complete hp (product_complete hp (power_complete hp (primary_complete hp ih)))

end Formulary.Expr
