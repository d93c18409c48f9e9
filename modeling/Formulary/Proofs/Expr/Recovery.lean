import Formulary.Proofs.Expr.Derivation
import Formulary.Proofs.Expr.Substitution
import Mathlib.Data.List.Chain

/-! # Substitution undone

A text in which operands have been replaced is the spelling of an expression only if the text was
one before.  The brackets around what has been put in keep it together: no cut of the new text at
balanced brackets falls inside of it, so that each cut is a cut of the old one.
-/

namespace Formulary.Expr

open Glyph (plain)

/-- A text in glyphs in which every placeholder shows its token, and no two stand side by side. -/
structure Spelt (place : Nat → Char) (gs : List Glyph) : Prop where
  labelled : Labelled place gs
  marked : Glyph.Marked gs
  apart : gs.IsChain fun g h => g.token.isSome = true → h.token = none

variable {place place' : Nat → Char} {leaf : Nat → Expr}

theorem plain_ne_token (c d : Char) (i : Nat) : plain c ≠ ⟨d, some i⟩ := by
  simp [plain]

theorem Spelt.of_infix {gs hs : List Glyph} (h : Spelt place hs) (hsub : gs <:+: hs) :
    Spelt place gs :=
  ⟨fun g hg => h.labelled g (hsub.subset hg), fun g hg => h.marked g (hsub.subset hg),
    h.apart.infix hsub⟩

theorem Spelt.of_append {gs hs : List Glyph} (h : Spelt place (gs ++ hs)) :
    Spelt place gs ∧ Spelt place hs :=
  ⟨h.of_infix (List.prefix_append gs hs).isInfix, h.of_infix (List.suffix_append gs hs).isInfix⟩

theorem Spelt.tail {g : Glyph} {gs : List Glyph} (h : Spelt place (g :: gs)) : Spelt place gs :=
  h.of_infix (List.suffix_cons g gs).isInfix

/-! ## Images -/

section Images

variable (hleaf : ∀ i, (leaf i).IsLeaf)

include hleaf

theorem image_eq (g : Glyph) :
    (∃ y, image leaf place' g = [y]) ∨
      ∃ x : Expr, image leaf place' g = plain '(' :: (x.glyphs place' ++ [plain ')']) := by
  obtain ⟨c, token⟩ := g
  cases token with
  | none => exact .inl ⟨⟨c, none⟩, rfl⟩
  | some i =>
    have := hleaf i
    generalize hl : leaf i = l at this
    cases this with
    | operand j => exact .inl ⟨⟨place' j, some j⟩, by simp [image, hl, glyphs]⟩
    | group x => exact .inr ⟨x, by simp [image, hl, glyphs]⟩

theorem image_ne_nil (g : Glyph) : image leaf place' g ≠ [] := by
  rcases @image_eq place' leaf hleaf g with ⟨y, h⟩ | ⟨x, h⟩ <;> simp [h]

theorem eq_nil_of_flatMap_image {gs : List Glyph} (h : gs.flatMap (image leaf place') = []) :
    gs = [] := by
  refine List.eq_nil_iff_forall_not_mem.2 fun g hg => ?_
  exact image_ne_nil hleaf g (List.flatMap_eq_nil_iff.1 h g hg)

/-- What a text with operands replaced can begin with. -/
theorem exists_of_flatMap_image_cons {gs rest : List Glyph} (hgs : Spelt place gs) {y : Glyph}
    (h : gs.flatMap (image leaf place') = y :: rest) :
    ∃ g gs', gs = g :: gs' ∧ Spelt place gs' ∧
      ((∃ c, g = plain c ∧ y = plain c ∧ gs'.flatMap (image leaf place') = rest) ∨
      (∃ i j, g = ⟨place i, some i⟩ ∧ y = ⟨place' j, some j⟩ ∧
        gs'.flatMap (image leaf place') = rest) ∨
      ∃ (i : Nat) (x : Expr), g = ⟨place i, some i⟩ ∧ y = plain '(' ∧
        x.glyphs place' ++ plain ')' :: gs'.flatMap (image leaf place') = rest) := by
  cases gs with
  | nil => cases h
  | cons g gs =>
    refine ⟨g, gs, rfl, hgs.tail, ?_⟩
    have label := (labelled_cons.1 hgs.labelled).1
    rw [List.flatMap_cons] at h
    obtain ⟨c, token⟩ := g
    cases token with
    | none =>
      obtain ⟨rfl, hrest⟩ := List.cons.inj h
      exact .inl ⟨c, rfl, rfl, hrest⟩
    | some i =>
      obtain rfl : c = place i := label i rfl
      have := hleaf i
      generalize hl : leaf i = l at this
      cases this with
      | operand j =>
        simp only [image, hl, glyphs, List.singleton_append] at h
        obtain ⟨rfl, hrest⟩ := List.cons.inj h
        exact .inr (.inl ⟨i, j, rfl, rfl, hrest⟩)
      | group x =>
        simp only [image, hl, glyphs, List.cons_append, List.append_assoc] at h
        obtain ⟨rfl, hrest⟩ := List.cons.inj h
        exact .inr (.inr ⟨i, x, rfl, rfl, hrest⟩)

/-- Characters other than opening brackets stood there before. -/
theorem exists_of_flatMap_image_plain {gs rest : List Glyph} (hgs : Spelt place gs) {cs : List Char}
    (hcs : '(' ∉ cs) (h : gs.flatMap (image leaf place') = cs.map plain ++ rest) :
    ∃ gs', gs = cs.map plain ++ gs' ∧ gs'.flatMap (image leaf place') = rest := by
  induction cs generalizing gs with
  | nil => exact ⟨gs, rfl, h⟩
  | cons c cs ih =>
    rw [List.mem_cons, not_or] at hcs
    obtain ⟨g, gs, rfl, hspelt, ⟨c', rfl, hc, hrest⟩ | ⟨i, j, -, hc, -⟩ | ⟨i, x, -, hc, -⟩⟩ :=
      exists_of_flatMap_image_cons hleaf hgs h
    · cases hc
      obtain ⟨gs', rfl, hgs'⟩ := ih hspelt hcs.2 hrest
      exact ⟨gs', rfl, hgs'⟩
    · cases hc
    · exact absurd (congrArg Glyph.char hc).symm hcs.1

end Images

/-! ## Brackets -/

/-- Replacing operands opens as many brackets as it closes. -/
theorem count_flatMap_image (hp' : ∀ i, isPlaceholder (place' i) = true) {gs : List Glyph}
    (hgs : Glyph.Marked gs) :
    ((gs.flatMap (image leaf place')).map (·.char)).count '(' + (gs.map (·.char)).count ')' =
      ((gs.flatMap (image leaf place')).map (·.char)).count ')' + (gs.map (·.char)).count '(' := by
  induction gs with
  | nil => rfl
  | cons g gs ih =>
    obtain ⟨hg, hgs⟩ := Glyph.marked_cons.1 hgs
    have rest := ih hgs
    obtain ⟨c, token⟩ := g
    cases token with
    | none =>
      simp only [List.flatMap_cons, image, List.singleton_append, List.map_cons, List.count_cons]
      omega
    | some i =>
      have inside := count_spell hp' (leaf i)
      have bracket : c ≠ '(' ∧ c ≠ ')' := by
        constructor <;> rintro rfl <;> exact Bool.false_ne_true hg.symm
      simp only [List.flatMap_cons, image, List.map_append, List.count_append, List.map_cons,
        List.count_cons_of_ne bracket.1, List.count_cons_of_ne bracket.2]
      rw [spell] at inside
      omega

/-- Replacing operands does not make the nesting of brackets less deep. -/
theorem prefix_count_of_flatMap_image (hp' : ∀ i, isPlaceholder (place' i) = true) {n : Nat}
    {gs : List Glyph} (hgs : Glyph.Marked gs)
    (h : ∀ p, p <+: (gs.flatMap (image leaf place')).map (·.char) →
      p.count '(' ≤ p.count ')' + n) :
    ∀ p, p <+: gs.map (·.char) → p.count '(' ≤ p.count ')' + n := by
  intro p hp
  obtain ⟨hs, ⟨rest, rfl⟩, rfl⟩ := List.prefix_map_iff.1 hp
  rw [List.flatMap_append] at h
  have outer := h _ ((List.prefix_append _ _).map _)
  have same := @count_flatMap_image place' leaf hp' hs (Glyph.marked_append.1 hgs).1
  omega

/-! ## Cuts -/

/-- What stands before the end of a spelling in brackets leaves a bracket open. -/
theorem depthAfter?_ne_zero {xs ys zs : List Char} (hbalanced : Bracket.depthAfter? 0 ys = some 0)
    (h : ys ++ [')'] = xs ++ zs) (hne : zs ≠ []) (d : Nat) :
    Bracket.depthAfter? (d + 1) xs ≠ some 0 := by
  intro hxs
  have hprefix : xs <+: ys := by
    obtain ⟨init, z, rfl⟩ := List.eq_nil_or_concat zs |>.resolve_left hne
    rw [List.concat_eq_append, ← List.append_assoc] at h
    obtain ⟨rfl, -⟩ := List.append_inj' h rfl
    exact List.prefix_append xs init
  have closed := (Bracket.depthAfter?_eq_some_iff.1 hbalanced).1 xs hprefix
  have all := (Bracket.depthAfter?_eq_some_iff.1 hxs).2
  omega

/-- Of two spellings that close a bracket, one at the end, neither goes on behind the bracket. -/
theorem eq_nil_of_glyphs_append (hp' : ∀ i, isPlaceholder (place' i) = true) {x y : Expr}
    {gs : List Glyph}
    (h : y.glyphs place' ++ plain ')' :: gs = x.glyphs place' ++ [plain ')']) : gs = [] := by
  have closing : ∀ (e : Expr) (cs : List Char),
      Bracket.closing? '(' ')' 0 (e.spell place' ++ ')' :: cs) =
        some (e.spell place').length := by
    intro e cs
    simp [Bracket.closing?_append (depthAfter?_spell hp' e 0), Bracket.closing?]
  have chars : y.spell place' ++ ')' :: gs.map (·.char) = x.spell place' ++ ')' :: [] := by
    simpa [spell] using congrArg (List.map (·.char)) h
  have same := closing y (gs.map (·.char))
  rw [chars, closing x [], Option.some.injEq] at same
  have total := congrArg List.length h
  simp only [List.length_append, List.length_cons, List.length_nil] at total
  simp only [spell, List.length_map] at same
  exact List.length_eq_zero_iff.1 (by omega)

section Cuts

variable (hp' : ∀ i, isPlaceholder (place' i) = true) (hleaf : ∀ i, (leaf i).IsLeaf)

include hp' hleaf

/-- A text with operands replaced is cut only where it could be cut before, if the cut is outside
of all brackets. -/
theorem exists_append_of_flatMap_image {gs xs ys : List Glyph}
    (h : gs.flatMap (image leaf place') = xs ++ ys) {d : Nat}
    (hd : Bracket.depthAfter? d (xs.map (·.char)) = some 0) :
    ∃ gs₁ gs₂, gs = gs₁ ++ gs₂ ∧ gs₁.flatMap (image leaf place') = xs ∧
      gs₂.flatMap (image leaf place') = ys := by
  induction gs generalizing d xs with
  | nil =>
    obtain ⟨rfl, rfl⟩ := List.append_eq_nil_iff.1 h.symm
    exact ⟨[], [], rfl, rfl, rfl⟩
  | cons g gs ih =>
    rw [List.flatMap_cons] at h
    rcases List.append_eq_append_iff.1 h with ⟨xs', rfl, hrest⟩ | ⟨zs, himage, rfl⟩
    · rw [List.map_append, Bracket.depthAfter?_append, Option.bind_eq_some_iff] at hd
      obtain ⟨d', -, hd'⟩ := hd
      obtain ⟨gs₁, gs₂, rfl, h₁, h₂⟩ := ih hrest hd'
      exact ⟨g :: gs₁, gs₂, rfl, by rw [List.flatMap_cons, h₁], h₂⟩
    · have whole : xs = [] ∨ zs = [] := by
        rcases @image_eq place' leaf hleaf g with ⟨y, hy⟩ | ⟨x, hx⟩
        · rw [hy] at himage
          exact (List.append_eq_singleton_iff.1 himage.symm).imp And.left And.right
        · rw [hx] at himage
          cases xs with
          | nil => exact .inl rfl
          | cons x₀ xs =>
            rw [List.cons_append, List.cons.injEq] at himage
            obtain ⟨rfl, hinner⟩ := himage
            refine .inr (Classical.byContradiction fun hne => ?_)
            have chars := congrArg (List.map (·.char)) hinner
            rw [List.map_append, List.map_append] at chars
            exact depthAfter?_ne_zero (depthAfter?_spell hp' x 0) chars (by simpa using hne) d
              (by simpa using hd)
      rcases whole with rfl | rfl
      · exact ⟨[], g :: gs, rfl, rfl, by rw [List.flatMap_cons, himage, List.nil_append]⟩
      · rw [List.append_nil] at himage
        exact ⟨[g], gs, rfl, by rw [List.flatMap_singleton, himage], rfl⟩

/-- A closing bracket at the end stood there before. -/
theorem exists_of_flatMap_image_closed {gs xs : List Glyph} (hgs : Spelt place gs)
    (hxs : Bracket.depthAfter? 0 (xs.map (·.char)) = some 0)
    (h : gs.flatMap (image leaf place') = xs ++ [plain ')']) :
    ∃ gs', gs = gs' ++ [plain ')'] ∧ Spelt place gs' ∧ gs'.flatMap (image leaf place') = xs := by
  obtain ⟨gs₁, gs₂, rfl, h₁, h₂⟩ := exists_append_of_flatMap_image hp' hleaf h hxs
  obtain ⟨hgs₁, hgs₂⟩ := hgs.of_append
  obtain ⟨gs₃, rfl, h₃⟩ := exists_of_flatMap_image_plain hleaf hgs₂ (by decide : '(' ∉ [')']) h₂
  obtain rfl := eq_nil_of_flatMap_image hleaf h₃
  exact ⟨gs₁, rfl, hgs₁, h₁⟩

/-! ## The expression that the text was spelled from -/

theorem exists_of_glyphsArgs {args : List Expr} (ih : ∀ a ∈ args, a.WellFormed → ∀ {gs},
      Spelt place gs → gs.flatMap (image leaf place') = a.glyphs place' →
        ∃ e : Expr, e.WellFormed ∧ e.level = a.level ∧ e.glyphs place = gs)
    (hargs : WellFormedArgs args) {gs : List Glyph} (hgs : Spelt place gs)
    (h : gs.flatMap (image leaf place') = glyphsArgs place' args) :
    ∃ es, WellFormedArgs es ∧ es.length = args.length ∧ glyphsArgs place es = gs := by
  induction args generalizing gs with
  | nil => exact ⟨[], trivial, rfl, (eq_nil_of_flatMap_image hleaf h).symm⟩
  | cons a args ihargs =>
    obtain ⟨iha, ihrest⟩ := List.forall_mem_cons.1 ih
    rw [glyphsArgs] at h
    obtain ⟨gs₁, gs₂, rfl, h₁, h₂⟩ :=
      exists_append_of_flatMap_image hp' hleaf h (depthAfter?_spell hp' a 0)
    obtain ⟨hgs₁, hgs₂⟩ := hgs.of_append
    obtain ⟨e, he, -, rfl⟩ := iha hargs.1 hgs₁ h₁
    cases args with
    | nil =>
      obtain rfl := eq_nil_of_flatMap_image hleaf h₂
      exact ⟨[e], ⟨he, trivial⟩, rfl, rfl⟩
    | cons b args =>
      obtain ⟨gs₃, rfl, h₃⟩ := exists_of_flatMap_image_plain hleaf hgs₂ (by decide : '(' ∉ [',']) h₂
      obtain ⟨es, hes, hlength, rfl⟩ := ihargs ihrest hargs.2 hgs₂.tail h₃
      obtain ⟨b', es, rfl⟩ := List.exists_cons_of_length_eq_add_one hlength
      exact ⟨e :: b' :: es, ⟨he, hes⟩, by simpa using hlength, rfl⟩

/-- If a text with operands replaced is the spelling of an expression, so was the text. -/
theorem exists_of_glyphs {e' : Expr} (hwf : e'.WellFormed) {gs : List Glyph}
    (hgs : Spelt place gs) (h : gs.flatMap (image leaf place') = e'.glyphs place') :
    ∃ e : Expr, e.WellFormed ∧ e.level = e'.level ∧ e.glyphs place = gs := by
  induction e' generalizing gs with
  | operand j =>
    obtain ⟨g, gs, rfl, -, ⟨c, -, hc, -⟩ | ⟨i, j', rfl, -, hrest⟩ | ⟨i, x, -, hc, -⟩⟩ :=
      exists_of_flatMap_image_cons hleaf hgs h
    · exact absurd hc.symm (plain_ne_token _ _ _)
    · obtain rfl := eq_nil_of_flatMap_image hleaf hrest
      exact ⟨operand i, trivial, rfl, rfl⟩
    · exact absurd hc.symm (plain_ne_token _ _ _)
  | group x ih =>
    rw [glyphs, List.cons_append] at h
    obtain ⟨g, gs, rfl, hspelt, ⟨c, rfl, hc, hrest⟩ | ⟨i, j, -, hc, -⟩ | ⟨i, y, rfl, -, hrest⟩⟩ :=
      exists_of_flatMap_image_cons hleaf hgs h
    · cases hc
      obtain ⟨gs', rfl, hgs', hx⟩ :=
        exists_of_flatMap_image_closed hp' hleaf hspelt (depthAfter?_spell hp' x 0) hrest
      obtain ⟨e, he, -, rfl⟩ := ih hwf hgs' hx
      exact ⟨group e, he, rfl, rfl⟩
    · exact absurd hc (plain_ne_token _ _ _)
    · -- the group was put in for a token, and nothing follows it
      obtain rfl := eq_nil_of_flatMap_image hleaf (eq_nil_of_glyphs_append hp' hrest)
      exact ⟨operand i, trivial, rfl, rfl⟩
  | unary s x ih =>
    have sign : '(' ∉ [s.symbol] := by cases s <;> decide
    obtain ⟨gs', rfl, hrest⟩ := exists_of_flatMap_image_plain hleaf hgs sign h
    obtain ⟨e, he, hlevel, rfl⟩ := ih hwf.1 hgs.of_append.2 hrest
    exact ⟨unary s e, ⟨he, hlevel ▸ hwf.2⟩, rfl, rfl⟩
  | binary op a b iha ihb =>
    rw [glyphs, List.append_assoc] at h
    obtain ⟨gs₁, gs₂, rfl, h₁, h₂⟩ :=
      exists_append_of_flatMap_image hp' hleaf h (depthAfter?_spell hp' a 0)
    obtain ⟨hgs₁, hgs₂⟩ := hgs.of_append
    have symbol : '(' ∉ op.symbol := by cases op <;> decide
    obtain ⟨gs₃, rfl, h₃⟩ := exists_of_flatMap_image_plain hleaf hgs₂ symbol h₂
    obtain ⟨⟨ha, hla⟩, hb, hlb⟩ := hwf
    obtain ⟨a', ha', hlevel, rfl⟩ := iha ha hgs₁ h₁
    obtain ⟨b', hb', hlevel', rfl⟩ := ihb hb hgs₂.of_append.2 h₃
    exact ⟨binary op a' b', ⟨⟨ha', hlevel ▸ hla⟩, hb', hlevel' ▸ hlb⟩, rfl, by
      rw [glyphs, List.append_assoc]⟩
  | call f args ih =>
    rw [glyphs, List.cons_append, List.cons_append] at h
    obtain ⟨g, gs, rfl, hspelt, ⟨c, -, hc, -⟩ | ⟨i, j, rfl, -, hrest⟩ | ⟨i, x, -, hc, -⟩⟩ :=
      exists_of_flatMap_image_cons hleaf hgs h
    · exact absurd hc.symm (plain_ne_token _ _ _)
    · obtain ⟨g, gs, rfl, hspelt', ⟨c, rfl, hc, hargs⟩ | ⟨k, _, rfl, -⟩ | ⟨k, _, rfl, -⟩⟩ :=
        exists_of_flatMap_image_cons hleaf hspelt hrest
      · cases hc
        have balanced : Bracket.depthAfter? 0 ((glyphsArgs place' args).map (·.char)) = some 0 :=
          depthAfter?_spellArgs (fun a _ => depthAfter?_spell hp' a) 0
        obtain ⟨gs', rfl, hgs', hx⟩ :=
          exists_of_flatMap_image_closed hp' hleaf hspelt' balanced hargs
        obtain ⟨es, hes, hlength, rfl⟩ :=
          exists_of_glyphsArgs hp' hleaf (fun a ha hwfa _ => ih a ha hwfa) hwf.2 hgs' hx
        refine ⟨call i es, ⟨fun hnil => hwf.1 ?_, hes⟩, rfl, rfl⟩
        rw [hnil] at hlength
        exact List.length_eq_zero_iff.1 hlength.symm
      -- no two placeholders stand side by side
      · cases (List.isChain_cons_cons.1 hgs.apart).1 rfl
      · cases (List.isChain_cons_cons.1 hgs.apart).1 rfl
    · exact absurd hc.symm (plain_ne_token _ _ _)

end Cuts

end Formulary.Expr
