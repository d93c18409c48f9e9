import Formulary.Proofs.Bracket.Depth
import Formulary.Proofs.Expr.Grammar
import Formulary.Skeleton.Stretch

/-! # Spelling

A tree is written out as a flat text, in which a placeholder stands for each token.  To keep track
of the tokens the text is first written in glyphs: a glyph is a character which, if it is a
placeholder, still knows its token.
-/

namespace Formulary

theorem isPlaceholder_iff {c : Char} : isPlaceholder c = true ↔ c = '□' ∨ c = '■' := by
  simp [isPlaceholder]

theorem TokenKind.isPlaceholder_placeholder (kind : TokenKind) :
    isPlaceholder kind.placeholder = true := by
  cases kind <;> rfl

theorem forall_not_isPlaceholder {cs : List Char} (h : cs.any isPlaceholder = false) :
    ∀ c ∈ cs, isPlaceholder c = false :=
  fun c hc => Bool.eq_false_iff.2 (List.any_eq_false.1 h c hc)

theorem forall_not_isPlaceholder_of_mem {texts : List (List Char)}
    (h : texts.any (·.any isPlaceholder) = false) {cs : List Char} (hcs : cs ∈ texts) :
    ∀ c ∈ cs, isPlaceholder c = false :=
  forall_not_isPlaceholder (Bool.eq_false_iff.2 (List.any_eq_false.1 h cs hcs))

/-- A character of a text, and the token that it stands for. -/
structure Glyph where
  char : Char
  token : Option Nat
deriving DecidableEq, Repr

namespace Glyph

/-- A character that stands for itself. -/
def plain (c : Char) : Glyph := ⟨c, none⟩

@[simp] theorem char_plain (c : Char) : (plain c).char = c := rfl
@[simp] theorem token_plain (c : Char) : (plain c).token = none := rfl

@[simp] theorem map_char_plain (cs : List Char) : (cs.map plain).map char = cs := by
  simp [Function.comp_def]

@[simp] theorem filterMap_token_plain (cs : List Char) :
    (cs.map plain).filterMap token = [] := by
  simp [List.filterMap_map, Function.comp_def]

/-- Do the placeholders, and only they, stand for tokens? -/
def Marked (gs : List Glyph) : Prop :=
  ∀ g ∈ gs, g.token.isSome = isPlaceholder g.char

@[simp] theorem marked_nil : Marked [] := by simp [Marked]

@[simp] theorem marked_cons {g : Glyph} {gs : List Glyph} :
    Marked (g :: gs) ↔ g.token.isSome = isPlaceholder g.char ∧ Marked gs :=
  List.forall_mem_cons

@[simp] theorem marked_append {gs hs : List Glyph} : Marked (gs ++ hs) ↔ Marked gs ∧ Marked hs :=
  List.forall_mem_append

/-- Marked glyphs are determined by their characters and the order of their tokens. -/
theorem Marked.ext {gs hs : List Glyph} (hg : Marked gs) (hh : Marked hs)
    (chars : gs.map char = hs.map char) (tokens : gs.filterMap token = hs.filterMap token) :
    gs = hs := by
  induction gs generalizing hs with
  | nil => exact (List.map_eq_nil_iff.1 chars.symm).symm
  | cons g gs ih =>
    obtain ⟨h, hs, rfl, hc, chars'⟩ := List.map_eq_cons_iff.1 chars.symm
    obtain ⟨mg, hgs⟩ := marked_cons.1 hg
    obtain ⟨mh, hhs⟩ := marked_cons.1 hh
    obtain ⟨c, t⟩ := g
    obtain ⟨c', t'⟩ := h
    simp only at hc mg mh
    subst hc
    cases t with
    | none =>
      cases t' with
      | none => rw [ih hgs hhs chars'.symm (by simpa using tokens)]
      | some j => simp [← mg] at mh
    | some i =>
      cases t' with
      | none => simp [← mg] at mh
      | some j =>
        obtain ⟨rfl, tokens'⟩ : i = j ∧ gs.filterMap token = hs.filterMap token := by
          simpa using tokens
        rw [ih hgs hhs chars'.symm tokens']

theorem Marked.countP_chars {gs : List Glyph} (h : Marked gs) :
    (gs.map char).countP isPlaceholder = (gs.filterMap token).length := by
  induction gs with
  | nil => rfl
  | cons g gs ih =>
    obtain ⟨hg, hgs⟩ := marked_cons.1 h
    rw [List.map_cons, List.countP_cons, ih hgs, ← hg, List.filterMap_cons]
    cases g.token <;> rfl

/-- Among marked glyphs the placeholders are the glyphs of tokens. -/
theorem Marked.filter_chars {gs : List Glyph} (h : Marked gs) :
    (gs.map char).filter isPlaceholder =
      gs.flatMap fun g => if g.token.isSome then [g.char] else [] := by
  induction gs with
  | nil => rfl
  | cons g gs ih =>
    obtain ⟨hg, hgs⟩ := marked_cons.1 h
    simp only [List.map_cons, List.filter_cons, List.flatMap_cons, hg, ih hgs]
    split <;> rfl

end Glyph

namespace Expr

open Glyph (plain)

variable (place : Nat → Char)

mutual

/-- A tree written out, where `place` gives the placeholders of the tokens. -/
def glyphs : Expr → List Glyph
  | operand i => [⟨place i, some i⟩]
  | group x => plain '(' :: glyphs x ++ [plain ')']
  | unary s x => plain s.symbol :: glyphs x
  | binary op a b => glyphs a ++ op.symbol.map plain ++ glyphs b
  | call f args => ⟨place f, some f⟩ :: plain '(' :: glyphsArgs args ++ [plain ')']

/-- Arguments written out, with commas between them. -/
def glyphsArgs : List Expr → List Glyph
  | [] => []
  | e :: es => glyphs e ++ if es.isEmpty then [] else plain ',' :: glyphsArgs es

end

theorem glyphsArgs_cons (e : Expr) (es : List Expr) :
    glyphsArgs place (e :: es) =
      glyphs place e ++ es.flatMap fun x => plain ',' :: glyphs place x := by
  induction es generalizing e with
  | nil => simp [glyphsArgs]
  | cons x es ih =>
    rw [glyphsArgs, ih]
    simp

/-- The flat text of a tree. -/
def spell (e : Expr) : List Char :=
  (e.glyphs place).map (·.char)

/-- The flat text of arguments. -/
def spellArgs (args : List Expr) : List Char :=
  (glyphsArgs place args).map (·.char)

@[simp] theorem spell_operand (i : Nat) : spell place (operand i) = [place i] := rfl

@[simp] theorem spell_group (x : Expr) :
    spell place (group x) = '(' :: spell place x ++ [')'] := by
  simp [spell, glyphs]

@[simp] theorem spell_unary (s : Sign) (x : Expr) :
    spell place (unary s x) = s.symbol :: spell place x := rfl

@[simp] theorem spell_binary (op : BinOp) (a b : Expr) :
    spell place (binary op a b) = spell place a ++ op.symbol ++ spell place b := by
  simp [spell, glyphs, Function.comp_def]

@[simp] theorem spell_call (f : Nat) (args : List Expr) :
    spell place (call f args) = place f :: '(' :: spellArgs place args ++ [')'] := by
  simp [spell, spellArgs, glyphs]

@[simp] theorem spellArgs_nil : spellArgs place [] = [] := rfl

@[simp] theorem spellArgs_cons (e : Expr) (es : List Expr) :
    spellArgs place (e :: es) = spell place e ++ es.flatMap fun x => ',' :: spell place x := by
  simp [spellArgs, spell, glyphsArgs_cons, List.map_flatMap]

/-! ## Tokens of a spelling -/

theorem filterMap_token_glyphsArgs {args : List Expr}
    (h : ∀ a ∈ args, (a.glyphs place).filterMap Glyph.token = a.tokenOrder) :
    (glyphsArgs place args).filterMap Glyph.token = tokenOrderList args := by
  induction args with
  | nil => rfl
  | cons a args ih =>
    obtain ⟨ha, hargs⟩ := List.forall_mem_cons.1 h
    cases args with
    | nil => simp [glyphsArgs, tokenOrderList, ha]
    | cons b args => simpa [glyphsArgs, tokenOrderList, ha, List.filterMap_cons] using ih hargs

/-- The tokens of a spelling are those of the tree, in reading order. -/
theorem filterMap_token_glyphs (e : Expr) :
    (e.glyphs place).filterMap Glyph.token = e.tokenOrder := by
  induction e with
  | operand i => rfl
  | group x ih => simpa [glyphs, tokenOrder, List.filterMap_cons] using ih
  | unary s x ih => simpa [glyphs, tokenOrder, List.filterMap_cons] using ih
  | binary op a b iha ihb => simp [glyphs, tokenOrder, iha, ihb]
  | call f args ih =>
    simpa [glyphs, tokenOrder, List.filterMap_cons] using filterMap_token_glyphsArgs place ih

variable {place}

section Placeholders

variable (hp : ∀ i, isPlaceholder (place i) = true)

include hp

theorem place_ne {c : Char} (h : isPlaceholder c = false) (i : Nat) : place i ≠ c := by
  intro e
  simp [← e, hp] at h

theorem marked_glyphs (e : Expr) : Glyph.Marked (e.glyphs place) := by
  have ink : ∀ cs : List Char, (∀ c ∈ cs, isPlaceholder c = false) →
      Glyph.Marked (cs.map plain) := by
    intro cs h g hg
    obtain ⟨c, hc, rfl⟩ := List.mem_map.1 hg
    simp [h c hc]
  induction e with
  | operand i => simp [glyphs, hp]
  | group x ih => simp [glyphs, ih, isPlaceholder]
  | unary s x ih => cases s <;> simp [glyphs, ih, isPlaceholder, Sign.symbol]
  | binary op a b iha ihb =>
    have hop := forall_not_isPlaceholder (by cases op <;> rfl : op.symbol.any isPlaceholder = false)
    simp [glyphs, iha, ihb, ink _ hop]
  | call f args ih =>
    have hargs : Glyph.Marked (glyphsArgs place args) := by
      cases args with
      | nil => simp [glyphsArgs]
      | cons a args =>
        obtain ⟨ha, hargs⟩ := List.forall_mem_cons.1 ih
        rw [glyphsArgs_cons, Glyph.marked_append]
        refine ⟨ha, ?_⟩
        intro g hg
        obtain ⟨x, hx, hg⟩ := List.mem_flatMap.1 hg
        rcases List.mem_cons.1 hg with rfl | hg
        · rfl
        · exact hargs x hx g hg
    have brackets : isPlaceholder '(' = false ∧ isPlaceholder ')' = false := ⟨rfl, rfl⟩
    simp [glyphs, hp, hargs, brackets]

/-! ## Ends of a spelling -/

/-- A spelling begins with a placeholder, an opening bracket or a sign. -/
theorem exists_head_spell (e : Expr) :
    ∃ c cs, e.spell place = c :: cs ∧
      (isPlaceholder c = true ∨ c = '(' ∨ ∃ s : Sign, c = s.symbol) := by
  induction e with
  | operand i => exact ⟨_, _, rfl, .inl (hp i)⟩
  | group x => exact ⟨_, _, spell_group .., .inr (.inl rfl)⟩
  | unary s x => exact ⟨_, _, rfl, .inr (.inr ⟨s, rfl⟩)⟩
  | binary op a b iha _ =>
    obtain ⟨c, cs, h, hc⟩ := iha
    exact ⟨c, cs ++ op.symbol ++ spell place b, by simp [h], hc⟩
  | call f args => exact ⟨_, _, spell_call .., .inl (hp f)⟩

/-- A spelling ends with a placeholder or a closing bracket. -/
theorem exists_last_spell (e : Expr) :
    ∃ cs c, e.spell place = cs ++ [c] ∧ Stretch.endsOperand c = true := by
  induction e with
  | operand i => exact ⟨[], _, rfl, by simp [Stretch.endsOperand, hp]⟩
  | group x => exact ⟨'(' :: spell place x, ')', by simp, rfl⟩
  | unary s x ih =>
    obtain ⟨cs, c, h, hc⟩ := ih
    exact ⟨s.symbol :: cs, c, by simp [h], hc⟩
  | binary op a b _ ihb =>
    obtain ⟨cs, c, h, hc⟩ := ihb
    exact ⟨spell place a ++ op.symbol ++ cs, c, by simp [h], hc⟩
  | call f args => exact ⟨place f :: '(' :: spellArgs place args, ')', by simp, rfl⟩

/-! ## Brackets of a spelling -/

theorem step?_place (i d : Nat) : Bracket.step? d (place i) = some d :=
  Bracket.step?_of_ne (place_ne hp rfl i) (place_ne hp rfl i) d

omit hp

theorem step?_sign (s : Sign) (d : Nat) : Bracket.step? d s.symbol = some d := by
  cases s <;> rfl

theorem depthAfter?_symbol (op : BinOp) (d : Nat) :
    Bracket.depthAfter? d op.symbol = some d :=
  by cases op <;> rfl

theorem step?_comma (d : Nat) : Bracket.step? d ',' = some d := rfl

theorem depthAfter?_spellArgs {args : List Expr}
    (h : ∀ a ∈ args, ∀ d, Bracket.depthAfter? d (a.spell place) = some d) (d : Nat) :
    Bracket.depthAfter? d (spellArgs place args) = some d := by
  have more : ∀ es : List Expr, (∀ a ∈ es, ∀ d, Bracket.depthAfter? d (a.spell place) = some d) →
      Bracket.depthAfter? d (es.flatMap fun x => ',' :: spell place x) = some d := by
    intro es
    induction es with
    | nil => intro _; rfl
    | cons x es ih =>
      intro hes
      obtain ⟨hx, hes⟩ := List.forall_mem_cons.1 hes
      simp [step?_comma, hx, ih hes]
  cases args with
  | nil => rfl
  | cons a args =>
    obtain ⟨ha, hargs⟩ := List.forall_mem_cons.1 h
    simp [ha, more args hargs]

include hp

/-- The brackets of a spelling are balanced. -/
theorem depthAfter?_spell (e : Expr) (d : Nat) :
    Bracket.depthAfter? d (e.spell place) = some d := by
  induction e generalizing d with
  | operand i => simp [step?_place hp]
  | group x ih => simp [ih]
  | unary s x ih => simp [step?_sign, ih]
  | binary op a b iha ihb => simp [iha, ihb, depthAfter?_symbol]
  | call f args ih =>
    have hargs := depthAfter?_spellArgs ih
    simp [step?_place hp, hargs]

theorem count_spell (e : Expr) : (e.spell place).count '(' = (e.spell place).count ')' := by
  simpa using (Bracket.depthAfter?_eq_some_iff.1 (depthAfter?_spell hp e 0)).2

/-! ## Nesting

The brackets of a tree are nested as deep as those of its spelling: some prefix of the spelling has
that many open brackets.
-/

omit hp in
theorem exists_prefix_nestingArgs {args : List Expr}
    (hcount : ∀ a ∈ args, (a.spell place).count '(' = (a.spell place).count ')')
    (h : ∀ a ∈ args, ∃ p, p <+: a.spell place ∧ p.count '(' = p.count ')' + a.nesting) :
    ∃ p, p <+: spellArgs place args ∧ p.count '(' = p.count ')' + nestingArgs args := by
  induction args with
  | nil => exact ⟨[], List.nil_prefix, rfl⟩
  | cons a args ih =>
    obtain ⟨⟨p, hpre, hp⟩, hargs⟩ := List.forall_mem_cons.1 h
    obtain ⟨ha, hcounts⟩ := List.forall_mem_cons.1 hcount
    obtain ⟨q, hqre, hq⟩ := ih hcounts hargs
    by_cases hle : nestingArgs args ≤ a.nesting
    · refine ⟨p, ?_, by rw [hp, nestingArgs, Nat.max_eq_left hle]⟩
      rw [spellArgs_cons]
      exact hpre.trans (List.prefix_append _ _)
    · cases args with
      | nil => exact absurd (Nat.zero_le _) hle
      | cons b args =>
        refine ⟨a.spell place ++ ',' :: q, ?_, ?_⟩
        · rw [spellArgs_cons, List.flatMap_cons, List.cons_append, ← spellArgs_cons]
          exact (List.prefix_append_right_inj _).2 ((List.prefix_cons_inj _).2 hqre)
        · rw [nestingArgs, Nat.max_eq_right (by omega)]
          simp
          omega

theorem exists_prefix_nesting (e : Expr) :
    ∃ p, p <+: e.spell place ∧ p.count '(' = p.count ')' + e.nesting := by
  induction e with
  | operand i => exact ⟨[], List.nil_prefix, rfl⟩
  | group x ih =>
    obtain ⟨p, hpre, h⟩ := ih
    refine ⟨'(' :: p, ?_, by simp [h, nesting]; omega⟩
    rw [spell_group]
    exact ((List.prefix_cons_inj _).2 hpre).trans (List.prefix_append _ _)
  | unary s x ih =>
    obtain ⟨p, hpre, h⟩ := ih
    refine ⟨s.symbol :: p, (List.prefix_cons_inj _).2 hpre, ?_⟩
    cases s <;> simpa [Sign.symbol, nesting] using h
  | binary op a b iha ihb =>
    rw [spell_binary]
    by_cases hle : b.nesting ≤ a.nesting
    · obtain ⟨p, hpre, h⟩ := iha
      refine ⟨p, ?_, by rw [h, nesting, Nat.max_eq_left hle]⟩
      rw [List.append_assoc]
      exact hpre.trans (List.prefix_append _ _)
    · obtain ⟨p, hpre, h⟩ := ihb
      have hop : op.symbol.count '(' = 0 ∧ op.symbol.count ')' = 0 := by cases op <;> decide
      refine ⟨a.spell place ++ op.symbol ++ p, (List.prefix_append_right_inj _).2 hpre, ?_⟩
      rw [nesting, Nat.max_eq_right (by omega)]
      simp only [List.count_append, hop, h, count_spell hp a]
      omega
  | call f args ih =>
    obtain ⟨p, hpre, h⟩ := exists_prefix_nestingArgs (fun a _ => count_spell hp a) ih
    refine ⟨place f :: '(' :: p, ?_, ?_⟩
    · rw [spell_call]
      exact (List.prefix_cons_inj _).2
        (((List.prefix_cons_inj _).2 hpre).trans (List.prefix_append _ _))
    · simp [place_ne hp (rfl : isPlaceholder '(' = false), h, nesting,
        place_ne hp (rfl : isPlaceholder ')' = false)]
      omega

end Placeholders

end Expr

end Formulary
