import Formulary.Proofs.Expr.Derivation

/-! # Soundness of reading

What is read from a stretch is a well-formed tree whose spelling is the stretch, and which is no
taller than allowed.  Each level of the reader gives a tree of its level, provided that the reader
of what stands in brackets is sound.
-/

namespace Formulary.Expr

open Glyph (plain)

variable {place : Nat → Char}

/-! ## Sums and products -/

theorem ofSymbol?_eq_some_iff {cs : List Char} {op : BinOp} :
    BinOp.ofSymbol? cs = some op ↔ op.symbol = cs := by
  constructor
  · intro h
    simpa using List.find?_some h
  · rintro rfl
    exact BinOp.ofSymbol?_symbol op

/-- The operators of a chain of level `l`, with right operands of level `m`. -/
structure ChainOp (l m : Level) (op : BinOp) : Prop where
  level : op.level = l
  leftLevel : op.leftLevel = l
  rightLevel : op.rightLevel = m

theorem foldLeft_sound {l m : Level} {operand : Stretch → Except Error Branch}
    (hoperand : Sound place m operand) {segs : List Stretch.Segment}
    (hops : ∀ seg ∈ segs, ∀ op : BinOp, op.symbol = seg.op → ChainOp l m op)
    (hlabels : ∀ seg ∈ segs, Labelled place seg.body.glyphs) {first b : Branch}
    (hfirst : first.tree.WellFormed ∧ l ≤ first.tree.level ∧ first.tree.height ≤ maxHeight)
    (h : foldLeft operand first segs = .ok b) :
    (b.tree.WellFormed ∧ l ≤ b.tree.level ∧ b.tree.height ≤ maxHeight) ∧
      b.tree.glyphs place = first.tree.glyphs place ++ segs.flatMap Stretch.Segment.glyphs := by
  induction segs generalizing first with
  | nil =>
    cases h
    exact ⟨hfirst, by simp⟩
  | cons seg segs ih =>
    obtain ⟨hop, hops⟩ := List.forall_mem_cons.1 hops
    obtain ⟨hlabel, hlabels⟩ := List.forall_mem_cons.1 hlabels
    rw [foldLeft] at h
    split at h
    · cases h
    · next op hsymbol =>
      have hsymbol := ofSymbol?_eq_some_iff.1 hsymbol
      obtain ⟨hl, hleft, hright⟩ := hop op hsymbol
      obtain ⟨right, hr, h⟩ := bind_eq_ok_iff.1 h
      obtain ⟨acc, hacc, h⟩ := bind_eq_ok_iff.1 h
      obtain ⟨rfl, hheight⟩ := node_eq_ok_iff.1 hacc
      have dr := hoperand _ _ hlabel hr
      obtain ⟨hwf, hlevel, _⟩ := hfirst
      have step : (binary op first.tree right.tree).WellFormed ∧
          l ≤ (binary op first.tree right.tree).level ∧
          (binary op first.tree right.tree).height ≤ maxHeight := by
        refine ⟨⟨⟨hwf, hleft ▸ hlevel⟩, dr.wellFormed, hright ▸ dr.level⟩, ?_, hheight⟩
        rw [Expr.level, hl]
        exact Nat.le_refl _
      obtain ⟨he, hglyphs⟩ := ih hops hlabels step h
      refine ⟨he, ?_⟩
      rw [hglyphs, Branch.binary, glyphs, dr.glyphs, hsymbol]
      simp [Stretch.Segment.glyphs]

theorem leftChain_sound {l m : Level} (hlm : l ≤ m) {operand : Stretch → Except Error Branch}
    (hoperand : Sound place m operand) {s : Stretch} {p : Span → Bool}
    (hops : ∀ sp ∈ (Stretch.operators s.chars).filter p, ∀ op : BinOp, op.symbol = sp.op →
      ChainOp l m op) {b : Branch} (hlabel : Labelled place s.glyphs)
    (h : leftChain operand s ((Stretch.operators s.chars).filter p) = .ok b) :
    Derives place l s b.tree := by
  have pieces := Stretch.glyphs_cut s p
  rw [pieces, labelled_append] at hlabel
  obtain ⟨hhead, htail⟩ := hlabel
  obtain ⟨first, hfirst, h⟩ := bind_eq_ok_iff.1 h
  have df := hoperand _ _ hhead hfirst
  have bodies : ∀ seg ∈ (s.cut ((Stretch.operators s.chars).filter p)).2,
      Labelled place seg.body.glyphs := fun seg hseg g hg =>
    htail g (List.mem_flatMap.2 ⟨seg, hseg, List.mem_append_right _ hg⟩)
  have ops : ∀ seg ∈ (s.cut ((Stretch.operators s.chars).filter p)).2, ∀ op : BinOp,
      op.symbol = seg.op → ChainOp l m op := by
    intro seg hseg op hop
    obtain ⟨sp, hsp, e⟩ := Stretch.exists_span_of_mem_cut hseg
    exact hops sp hsp op (hop.trans e.symm)
  obtain ⟨⟨hwf, hl, hh⟩, hglyphs⟩ := foldLeft_sound hoperand ops bodies
    ⟨df.wellFormed, Level.le_trans hlm df.level, df.height⟩ h
  exact ⟨hwf, hl, by rw [hglyphs, df.glyphs, ← pieces], hh⟩

theorem product_sound {inner : Stretch → Except Error Branch}
    (hpower : Sound place .power (power inner)) : Sound place .product (product inner) := by
  intro s b hlabel h
  refine leftChain_sound (by decide) hpower ?_ hlabel h
  intro sp hsp op hop
  have := (List.mem_filter.1 hsp).2
  rw [← hop] at this
  revert this
  cases op <;> first | exact fun _ => ⟨rfl, rfl, rfl⟩ | exact fun h => absurd h (by decide)

theorem sum_sound {inner : Stretch → Except Error Branch}
    (hproduct : Sound place .product (product inner)) : Sound place .sum (sum inner) := by
  intro s b hlabel h
  unfold sum at h
  split at h
  · cases h
  · refine leftChain_sound (by decide) hproduct ?_ hlabel h
    intro sp hsp op hop
    have := (Bool.and_eq_true_iff.1 (List.mem_filter.1 hsp).2).1
    rw [← hop] at this
    revert this
    cases op <;> first | exact fun _ => ⟨rfl, rfl, rfl⟩ | exact fun h => absurd h (by decide)

/-! ## Powers -/

namespace Signed

variable (place) in
def glyphs (x : Signed) : List Glyph :=
  (x.signs.map fun p => plain p.2.symbol) ++ x.base.tree.glyphs place

/-- The signs at the head of a stretch and what follows them are the stretch. -/
theorem glyphs_leadingSigns (s : Stretch) :
    s.glyphs = ((leadingSigns s).map fun p => plain p.2.symbol) ++
      (s.drop (leadingSigns s).length).glyphs := by
  obtain ⟨marks, stop⟩ := s
  simp only [leadingSigns, Stretch.glyphs, Stretch.drop]
  induction marks with
  | nil => rfl
  | cons m marks ih =>
    cases hm : m.sign? with
    | none => simp [hm]
    | some sign =>
      have hchar : m.char = sign.symbol := by
        revert hm
        unfold Mark.sign? Sign.ofChar?
        split
        · next h => rintro ⟨⟩; exact h
        · split
          · next h => rintro ⟨⟩; exact h
          · rintro ⟨⟩
      have hglyph : m.glyph = plain sign.symbol := by
        rw [← hchar]
        exact Mark.glyph_of_not_isPlace (by rw [hchar]; cases sign <;> rfl)
      simpa [hm, hglyph] using ih

/-- What is read is a sequence of signs and an operand, group or call. -/
theorem read_sound {inner : Stretch → Except Error Branch}
    (hprimary : Sound place .primary (primary inner)) {s : Stretch} {x : Signed}
    (hlabel : Labelled place s.glyphs) (h : read inner s = .ok x) :
    x.glyphs place = s.glyphs ∧ x.base.tree.WellFormed ∧ .primary ≤ x.base.tree.level ∧
      x.base.tree.height ≤ maxHeight := by
  obtain ⟨base, hbase, h⟩ := bind_eq_ok_iff.1 h
  cases h
  have pieces := glyphs_leadingSigns s
  rw [pieces, labelled_append] at hlabel
  have db := hprimary _ _ hlabel.2 hbase
  exact ⟨by rw [pieces, glyphs, db.glyphs], db.wellFormed, db.level, db.height⟩

theorem readSegments_sound {inner : Stretch → Except Error Branch}
    (hprimary : Sound place .primary (primary inner)) {segs : List Stretch.Segment}
    (hlabels : ∀ seg ∈ segs, Labelled place seg.body.glyphs) {xs : List (Nat × Signed)}
    (h : readSegments inner segs = .ok xs) :
    (xs.map fun p => p.2.glyphs place) = segs.map (·.body.glyphs) ∧
      ∀ p ∈ xs, p.2.base.tree.WellFormed ∧ .primary ≤ p.2.base.tree.level ∧
        p.2.base.tree.height ≤ maxHeight := by
  induction segs generalizing xs with
  | nil =>
    cases h
    simp
  | cons seg segs ih =>
    obtain ⟨hlabel, hlabels⟩ := List.forall_mem_cons.1 hlabels
    obtain ⟨x, hx, h⟩ := bind_eq_ok_iff.1 h
    obtain ⟨ys, hys, h⟩ := bind_eq_ok_iff.1 h
    cases h
    obtain ⟨hglyphs, hbase⟩ := read_sound hprimary hlabel hx
    obtain ⟨hrest, hbases⟩ := ih hlabels hys
    exact ⟨by simp [hglyphs, hrest], List.forall_mem_cons.2 ⟨hbase, hbases⟩⟩

theorem apply_sound {signs : List (Nat × Sign)} {b b' : Branch}
    (he : b.tree.WellFormed ∧ .power ≤ b.tree.level ∧ b.tree.height ≤ maxHeight)
    (h : apply signs b = .ok b') :
    (b'.tree.WellFormed ∧ .power ≤ b'.tree.level ∧ b'.tree.height ≤ maxHeight) ∧
      b'.tree.glyphs place = (signs.map fun p => plain p.2.symbol) ++ b.tree.glyphs place := by
  induction signs generalizing b' with
  | nil =>
    cases h
    exact ⟨he, rfl⟩
  | cons p signs ih =>
    obtain ⟨x, hx, h⟩ := bind_eq_ok_iff.1 h
    obtain ⟨rfl, hheight⟩ := node_eq_ok_iff.1 h
    obtain ⟨⟨hwf, hlevel, _⟩, hglyphs⟩ := ih hx
    refine ⟨⟨⟨hwf, hlevel⟩, Nat.le_refl _, hheight⟩, ?_⟩
    rw [Branch.unary, Expr.glyphs, hglyphs]
    rfl

theorem combine_sound {first : Signed} {rest : List (Nat × Signed)}
    (hfirst : first.base.tree.WellFormed ∧ .primary ≤ first.base.tree.level ∧
      first.base.tree.height ≤ maxHeight)
    (hrest : ∀ p ∈ rest, p.2.base.tree.WellFormed ∧ .primary ≤ p.2.base.tree.level ∧
      p.2.base.tree.height ≤ maxHeight)
    {b : Branch} (h : combine first rest = .ok b) :
    (b.tree.WellFormed ∧ .power ≤ b.tree.level ∧ b.tree.height ≤ maxHeight) ∧
      b.tree.glyphs place = first.glyphs place ++
        rest.flatMap fun p => BinOp.pow.symbol.map plain ++ p.2.glyphs place := by
  obtain ⟨hwf, hlevel, hheight⟩ := hfirst
  induction rest generalizing first b with
  | nil =>
    obtain ⟨he, hglyphs⟩ :=
      apply_sound ⟨hwf, Level.le_trans (by decide) hlevel, hheight⟩ h
    exact ⟨he, by simpa [glyphs] using hglyphs⟩
  | cons p rest ih =>
    obtain ⟨⟨hnext, hlnext, hhnext⟩, hrest⟩ := List.forall_mem_cons.1 hrest
    obtain ⟨exponent, hexp, h⟩ := bind_eq_ok_iff.1 h
    obtain ⟨x, hx, h⟩ := bind_eq_ok_iff.1 h
    obtain ⟨rfl, hnode⟩ := node_eq_ok_iff.1 hx
    obtain ⟨⟨hwe, hle, _⟩, hge⟩ := ih hrest hexp hnext hlnext hhnext
    obtain ⟨he, hglyphs⟩ :=
      apply_sound (b := .binary .pow first.base exponent)
        ⟨⟨⟨hwf, hlevel⟩, hwe, hle⟩, Nat.le_refl _, hnode⟩ h
    refine ⟨he, ?_⟩
    rw [hglyphs, Branch.binary, Expr.glyphs, hge]
    simp [glyphs]

end Signed

theorem power_sound {inner : Stretch → Except Error Branch}
    (hprimary : Sound place .primary (primary inner)) : Sound place .power (power inner) := by
  intro s b hlabel h
  have pieces := Stretch.glyphs_cut s (·.op == ['*', '*'])
  rw [pieces, labelled_append] at hlabel
  obtain ⟨hhead, htail⟩ := hlabel
  obtain ⟨first, hfirst, h⟩ := bind_eq_ok_iff.1 h
  obtain ⟨rest, hrest, h⟩ := bind_eq_ok_iff.1 h
  have bodies : ∀ seg ∈ (s.cut (Stretch.powerCuts s.chars)).2,
      Labelled place seg.body.glyphs := fun seg hseg g hg =>
    htail g (List.mem_flatMap.2 ⟨seg, hseg, List.mem_append_right _ hg⟩)
  obtain ⟨hglyphs, hbase⟩ := Signed.read_sound hprimary hhead hfirst
  obtain ⟨hrestGlyphs, hbases⟩ := Signed.readSegments_sound hprimary bodies hrest
  obtain ⟨⟨hwf, hl, hh⟩, hall⟩ := Signed.combine_sound hbase hbases h
  have segments : (s.cut (Stretch.powerCuts s.chars)).2.flatMap Stretch.Segment.glyphs =
      rest.flatMap fun p => BinOp.pow.symbol.map plain ++ p.2.glyphs place := by
    refine (Stretch.flatMap_glyphs_of_op (fun seg hseg => Stretch.op_eq_of_mem_cut hseg)
      hrestGlyphs.symm).trans ?_
    rw [List.flatMap_map]
    rfl
  exact ⟨hwf, hl, by rw [hall, hglyphs, ← segments]; exact pieces.symm, hh⟩

/-! ## Operands, groups and calls -/

/-- What brackets enclose is followed by the closing bracket alone. -/
theorem glyphs_enclosed {p : Nat} {s body : Stretch} (h : enclosed p s = .ok body) :
    s.glyphs = body.glyphs ++ [plain ')'] := by
  unfold enclosed at h
  split at h
  · cases h
  · next k hk =>
    simp only at h
    split at h
    · next hempty =>
      cases h
      obtain ⟨xs, ys, hchars, hlen, _⟩ := Bracket.closing?_eq_some hk
      obtain ⟨front, back, hmarks, hfront, hback⟩ := List.map_eq_append_iff.1 hchars
      obtain ⟨m, rest, rfl, hm, -⟩ := List.map_eq_cons_iff.1 hback
      have len : front.length = k := by rw [← hlen, ← hfront, List.length_map]
      have none : rest = [] := by
        simpa [Stretch.drop, hmarks, ← len, List.drop_append] using hempty
      have hglyph : m.glyph = plain ')' := by
        rw [← hm]
        exact Mark.glyph_of_not_isPlace (by rw [hm]; rfl)
      simp [Stretch.glyphs, Stretch.take, hmarks, none, ← len, hglyph]
    · cases h

theorem readAll_sound {inner : Stretch → Except Error Branch} (hinner : Sound place .sum inner)
    {ss : List Stretch} (hlabels : ∀ s ∈ ss, Labelled place s.glyphs) {bs : List Branch}
    (h : readAll inner ss = .ok bs) :
    (bs.map fun b => b.tree.glyphs place) = ss.map (·.glyphs) ∧
      ∀ b ∈ bs, b.tree.WellFormed ∧ b.tree.height ≤ maxHeight := by
  induction ss generalizing bs with
  | nil =>
    cases h
    simp
  | cons s ss ih =>
    obtain ⟨hlabel, hlabels⟩ := List.forall_mem_cons.1 hlabels
    obtain ⟨b, hb, h⟩ := bind_eq_ok_iff.1 h
    obtain ⟨bs, hbs, h⟩ := bind_eq_ok_iff.1 h
    cases h
    have d := hinner _ _ hlabel hb
    obtain ⟨hglyphs, hrest⟩ := ih hlabels hbs
    exact ⟨by simp [d.glyphs, hglyphs], List.forall_mem_cons.2 ⟨⟨d.wellFormed, d.height⟩, hrest⟩⟩

theorem arguments_sound {inner : Stretch → Except Error Branch} (hinner : Sound place .sum inner)
    {s : Stretch} (hlabel : Labelled place s.glyphs) {args : List Branch}
    (h : arguments inner s = .ok args) :
    args ≠ [] ∧ (∀ a ∈ args, a.tree.WellFormed ∧ a.tree.height ≤ maxHeight) ∧
      glyphsArgs place (args.map (·.tree)) = s.glyphs := by
  unfold arguments at h
  split at h
  · cases h
  · simp only at h
    have pieces := Stretch.glyphs_cut s (·.op == [','])
    rw [pieces, labelled_append] at hlabel
    obtain ⟨hhead, htail⟩ := hlabel
    have bodies : ∀ body ∈ (s.cut (Stretch.commas s.chars)).1 ::
        (s.cut (Stretch.commas s.chars)).2.map (·.body), Labelled place body.glyphs := by
      refine List.forall_mem_cons.2 ⟨hhead, List.forall_mem_map.2 fun seg hseg g hg => ?_⟩
      exact htail g (List.mem_flatMap.2 ⟨seg, hseg, List.mem_append_right _ hg⟩)
    obtain ⟨hglyphs, hargs⟩ := readAll_sound hinner bodies h
    cases args with
    | nil => simp at hglyphs
    | cons a args =>
      obtain ⟨ha, hrest⟩ := List.cons.inj hglyphs
      have segments : (s.cut (Stretch.commas s.chars)).2.flatMap Stretch.Segment.glyphs =
          (args.map (·.tree)).flatMap fun x => plain ',' :: x.glyphs place := by
        have hbodies : (s.cut (Stretch.commas s.chars)).2.map (·.body.glyphs) =
            args.map fun x => x.tree.glyphs place := by
          rw [hrest, List.map_map]
          rfl
        refine (Stretch.flatMap_glyphs_of_op (fun seg hseg => Stretch.op_eq_of_mem_cut hseg)
          hbodies).trans ?_
        rw [List.flatMap_map, List.flatMap_map]
        rfl
      refine ⟨by simp, hargs, ?_⟩
      rw [List.map_cons, glyphsArgs_cons, ← segments, show a.tree.glyphs place = _ from ha]
      exact pieces.symm

theorem primary_sound {inner : Stretch → Except Error Branch} (hinner : Sound place .sum inner) :
    Sound place .primary (primary inner) := by
  intro s b hlabel h
  obtain ⟨marks, stop⟩ := s
  unfold primary at h
  split at h
  · cases h
  · next m rest hmarks =>
    obtain rfl : marks = m :: rest := hmarks
    have drop₁ : (Stretch.drop 1 ⟨m :: rest, stop⟩).glyphs = rest.map Mark.glyph := rfl
    split at h
    · next hopen =>
      obtain ⟨body, hbody, h⟩ := bind_eq_ok_iff.1 h
      obtain ⟨x, hx, h⟩ := bind_eq_ok_iff.1 h
      obtain ⟨rfl, hheight⟩ := node_eq_ok_iff.1 h
      have text := drop₁.symm.trans (glyphs_enclosed hbody)
      have hm : m.glyph = plain '(' := by
        rw [← hopen]
        exact Mark.glyph_of_not_isPlace (by rw [hopen]; rfl)
      have all : Stretch.glyphs ⟨m :: rest, stop⟩ = plain '(' :: (body.glyphs ++ [plain ')']) := by
        rw [← text, ← hm]
        rfl
      have dx := hinner body x (fun g hg => hlabel g (by rw [all]; simp [hg])) hx
      exact ⟨dx.wellFormed, Nat.le_refl _, by rw [all, ← dx.glyphs]; rfl, hheight⟩
    · next hopen =>
      split at h
      · next hplace =>
        have hm : m.glyph = ⟨place m.token, some m.token⟩ := by
          have hg : m.glyph = ⟨m.char, some m.token⟩ := by simp [Mark.glyph, hplace]
          have hc : m.char = place m.token :=
            hlabel m.glyph (by simp [Stretch.glyphs]) m.token (by rw [hg])
          rw [hg, hc]
        split at h
        · cases h
          refine ⟨trivial, Nat.le_refl _, ?_, by simp [Branch.operand, height, maxHeight]⟩
          rw [Branch.operand, Expr.glyphs, ← hm]
          rfl
        · next next rest' =>
          split at h
          · next hnext =>
            obtain ⟨body, hbody, h⟩ := bind_eq_ok_iff.1 h
            obtain ⟨args, hargs, h⟩ := bind_eq_ok_iff.1 h
            obtain ⟨rfl, hheight⟩ := node_eq_ok_iff.1 h
            have text : rest'.map Mark.glyph = body.glyphs ++ [plain ')'] := glyphs_enclosed hbody
            have hn : next.glyph = plain '(' := by
              rw [← hnext]
              exact Mark.glyph_of_not_isPlace (by rw [hnext]; rfl)
            have all : Stretch.glyphs ⟨m :: next :: rest', stop⟩ =
                ⟨place m.token, some m.token⟩ :: plain '(' :: (body.glyphs ++ [plain ')']) := by
              rw [← text, ← hm, ← hn]
              rfl
            obtain ⟨hne, hall, hglyphs⟩ :=
              arguments_sound hinner (fun g hg => hlabel g (by rw [all]; simp [hg])) hargs
            have wellFormed := wellFormedArgs_iff.2 (List.forall_mem_map.2 fun a ha => (hall a ha).1)
            refine ⟨⟨mt List.map_eq_nil_iff.1 hne, wellFormed⟩, Nat.le_refl _, ?_, hheight⟩
            rw [all, ← hglyphs]
            rfl
          · cases h
      · cases h

/-- Whatever the depth of the brackets that may be read, what is read is derived. -/
theorem read_sound (depth : Nat) : Sound place .sum (read depth) := by
  induction depth with
  | zero =>
    intro s b _ h
    cases h
  | succ depth ih => exact sum_sound (product_sound (power_sound (primary_sound ih)))

end Formulary.Expr
