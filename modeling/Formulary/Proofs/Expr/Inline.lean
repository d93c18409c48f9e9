import Formulary.Proofs.Skeleton.Numbered

/-! # Expressions of formulas put together

When a formula is put in the place of tokens of another one, in brackets, the tokens are numbered
anew, and the expression is that of the outer formula with the inner one, as a group, in the place
of the operands.  Nothing else is read, and nothing is read that was not read before.
-/

namespace Formulary

open Glyph (plain)

/-! ## Names -/

/-- Names with those of an inner formula in the place of one of them. -/
def spliceNames (name : String) (inner names : List String) : List String :=
  names.flatMap fun n => if n = name then inner else [n]

/-- The number of the first of the names that are put in the place of number `i`. -/
def offset (name : String) (inner names : List String) (i : Nat) : Nat :=
  (spliceNames name inner (names.take i)).length

section Names

variable {name : String} {inner names : List String} {i : Nat} {n : String}

theorem offset_succ (h : names[i]? = some n) :
    offset name inner names (i + 1) =
      offset name inner names i + (if n = name then inner else [n]).length := by
  rw [offset, offset, List.take_add_one, h, Option.toList_some, spliceNames, spliceNames,
    List.flatMap_append, List.length_append, List.flatMap_singleton]

theorem getElem?_spliceNames (h : names[i]? = some n) {j : Nat}
    (hj : j < (if n = name then inner else [n]).length) :
    (spliceNames name inner names)[j + offset name inner names i]? =
      (if n = name then inner else [n])[j]? := by
  have hi : i < names.length := (List.getElem?_eq_some_iff.1 h).1
  have split : names = names.take i ++ n :: names.drop (i + 1) := by
    have := List.getElem?_eq_some_iff.1 h |>.2
    rw [← this, ← List.drop_eq_getElem_cons hi, List.take_append_drop]
  have spliced : spliceNames name inner names = spliceNames name inner (names.take i) ++
      ((if n = name then inner else [n]) ++ spliceNames name inner (names.drop (i + 1))) := by
    conv => lhs; rw [split]
    rw [spliceNames, List.flatMap_append, List.flatMap_cons]
    rfl
  rw [spliced, offset, List.getElem?_append_right (Nat.le_add_left _ _), Nat.add_sub_cancel,
    List.getElem?_append_left hj]

end Names

namespace Lexeme

theorem names_splice (name : String) (inner ls : List Lexeme) :
    names (ls.flatMap (splice name.toList inner)) = spliceNames name (names inner) (names ls) := by
  induction ls with
  | nil => rfl
  | cons l ls ih =>
    rw [List.flatMap_cons, names_append, ih]
    cases l with
    | symbol sym => rfl
    | gap => rfl
    | word w =>
      rw [names_word, spliceNames, spliceNames, List.flatMap_cons, splice]
      by_cases hw : w = name.toList
      · have : String.ofList w = name := by rw [hw, String.ofList_toList]
        rw [if_pos hw, if_pos this]
        simp
      · have : String.ofList w ≠ name := fun h => hw (by rw [← h, String.toList_ofList])
        rw [if_neg hw, if_neg this]
        rfl

/-- What is spelled when the words among lexemes are replaced, and what has been put in for the word
number `i` is numbered from `cut i` on. -/
theorem flatMap_image_glyphs {leaf : Nat → Expr} {place : Nat → Char} {cut : Nat → Nat}
    {σ : Lexeme → List Lexeme} (hsymbol : ∀ sym, σ (symbol sym) = [symbol sym])
    (hgap : σ gap = [gap]) {ls : List Lexeme} {k : Nat}
    (hword : ∀ i w, (names ls)[i]? = some (String.ofList w) →
      (leaf (k + i)).glyphs place = glyphs (cut (k + i)) (σ (word w)) ∧
        cut (k + i + 1) = cut (k + i) + (names (σ (word w))).length) :
    (glyphs k ls).flatMap (Expr.image leaf place) = glyphs (cut k) (ls.flatMap σ) := by
  induction ls generalizing k with
  | nil => rfl
  | cons l ls ih =>
    cases l with
    | symbol sym =>
      rw [glyphs, List.flatMap_append, Expr.flatMap_image_plain, ih hword, List.flatMap_cons,
        hsymbol]
      rfl
    | gap =>
      rw [glyphs, ih hword, List.flatMap_cons, hgap]
      rfl
    | word w =>
      have hleaf : (leaf k).glyphs place = glyphs (cut k) (σ (word w)) := (hword 0 w rfl).1
      have hcut : cut (k + 1) = cut k + (names (σ (word w))).length := (hword 0 w rfl).2
      have rest := @ih (k + 1) fun i w' hi => by
        have := hword (i + 1) w' hi
        rwa [← Nat.add_assoc, Nat.add_right_comm k i 1] at this
      have here : Expr.image leaf place
          ⟨(TokenKind.ofName (String.ofList w)).placeholder, some k⟩ =
            glyphs (cut k) (σ (word w)) := hleaf
      rw [glyphs, List.flatMap_cons, here, rest, List.flatMap_cons, glyphs_append, ← hcut]

end Lexeme

/-! ## Expressions -/

namespace Expr

/-- The expression with its tokens numbered from `k` on. -/
def shift (k : Nat) (e : Expr) : Expr :=
  e.substitute (fun j => operand (j + k)) (· + k)

theorem wellFormed_shift {e : Expr} (h : e.WellFormed) (k : Nat) : (e.shift k).WellFormed :=
  wellFormed_substitute (fun _ => .operand _) (fun _ => trivial) h

theorem glyphs_shift {e : Expr} {place place' : Nat → Char} {ls : List Lexeme}
    (h : e.glyphs place = Lexeme.glyphs 0 ls) {k : Nat}
    (hplace : ∀ j n, (Lexeme.names ls)[j]? = some n →
      place' (j + k) = (TokenKind.ofName n).placeholder) :
    (e.shift k).glyphs place' = Lexeme.glyphs k ls := by
  have numbered : ∀ i w, (Lexeme.names ls)[i]? = some (String.ofList w) →
      (operand (0 + i + k)).glyphs place' = Lexeme.glyphs (0 + i + k) [.word w] ∧
        0 + i + 1 + k = 0 + i + k + 1 := by
    intro i w hi
    refine ⟨?_, Nat.add_right_comm _ _ _⟩
    rw [Nat.zero_add, glyphs, hplace i _ hi]
    rfl
  rw [shift, glyphs_substitute fun _ _ => rfl, h,
    @Lexeme.flatMap_image_glyphs _ _ (· + k) (fun l => [l]) (fun _ => rfl) rfl ls 0 numbered,
    List.flatMap_singleton', Nat.zero_add]

/-- What stands for the token number `i` when a formula with the expression `g` is put in the place
of the tokens of a name. -/
def inlined (name : String) (inner names : List String) (g : Expr) (i : Nat) : Expr :=
  if names[i]? = some name then group (g.shift (offset name inner names i))
  else operand (offset name inner names i)

section Inlined

variable {name : String} {inner names : List String} {g : Expr} {i : Nat}

theorem inlined_of_eq (h : names[i]? = some name) :
    inlined name inner names g i = group (g.shift (offset name inner names i)) :=
  if_pos h

theorem inlined_of_ne (h : names[i]? ≠ some name) :
    inlined name inner names g i = operand (offset name inner names i) :=
  if_neg h

theorem isLeaf_inlined (name : String) (inner names : List String) (g : Expr) (i : Nat) :
    (inlined name inner names g i).IsLeaf := by
  unfold inlined
  split
  · exact .group _
  · exact .operand _

theorem wellFormed_inlined (hg : g.WellFormed) (i : Nat) :
    (inlined name inner names g i).WellFormed := by
  unfold inlined
  split
  · exact wellFormed_shift hg _
  · trivial

end Inlined

end Expr

namespace Lexeme

/-- With a formula in the place of a name the spelling is that of the lexemes with the lexemes of
the formula in the place of the name. -/
theorem flatMap_image_inlined {g : Expr} {place : Nat → Char} {inner : List Lexeme}
    (hg : g.glyphs place = glyphs 0 inner) (name : String) (ls : List Lexeme) :
    (glyphs 0 ls).flatMap (Expr.image (Expr.inlined name (names inner) (names ls) g)
        (placeOf (spliceNames name (names inner) (names ls)))) =
      glyphs 0 (ls.flatMap (splice name.toList inner)) := by
  refine @flatMap_image_glyphs _ _ (offset name (names inner) (names ls)) (splice name.toList inner)
    (fun _ => rfl) rfl ls 0 fun i w hi => ?_
  rw [Nat.zero_add, offset_succ hi, splice]
  have place {j : Nat} (hj : j < (if String.ofList w = name then names inner
      else [String.ofList w]).length) : placeOf (spliceNames name (names inner) (names ls))
        (j + offset name (names inner) (names ls) i) =
          placeOf (if String.ofList w = name then names inner else [String.ofList w]) j := by
    rw [placeOf, placeOf, getElem?_spliceNames hi hj]
  by_cases hw : String.ofList w = name
  · have htext : w = name.toList := by rw [← hw, String.toList_ofList]
    rw [hw] at hi
    simp only [if_pos hw, if_pos htext] at place ⊢
    refine ⟨?_, by simp⟩
    rw [Expr.inlined_of_eq hi, Expr.glyphs, Expr.glyphs_shift hg fun j n hn => ?_]
    · simp [glyphs, glyphs_append]
    · rw [place (List.getElem?_eq_some_iff.1 hn).1, placeOf, hn]
      rfl
  · have htext : w ≠ name.toList := fun h => hw (by rw [h, String.ofList_toList])
    simp only [if_neg hw, if_neg htext] at place ⊢
    refine ⟨?_, rfl⟩
    rw [Expr.inlined_of_ne fun h => hw (Option.some.inj (hi.symm.trans h)), Expr.glyphs]
    have := @place 0 Nat.zero_lt_one
    rw [Nat.zero_add] at this
    rw [this]
    rfl

end Lexeme

/-- No expression is higher than its spelling is long. -/
theorem Expr.height_le_length_glyphs (place : Nat → Char) (e : Expr) :
    e.height ≤ (e.glyphs place).length := by
  induction e with
  | operand i => exact Nat.le_refl 1
  | group x ih =>
    simp only [height, glyphs, List.cons_append, List.length_cons, List.length_append]
    omega
  | unary s x ih => exact Nat.succ_le_succ ih
  | binary op a b iha ihb =>
    have symbol : 0 < op.symbol.length := by cases op <;> decide
    simp only [height, glyphs, List.length_append, List.length_map]
    omega
  | call f args ih =>
    have hargs : heightList args ≤ (glyphsArgs place args).length := by
      induction args with
      | nil => exact Nat.le_refl 0
      | cons a args ihargs =>
        obtain ⟨ha, hrest⟩ := List.forall_mem_cons.1 ih
        have rest := ihargs hrest
        cases args with
        | nil => simpa [heightList, glyphsArgs] using ha
        | cons b args =>
          rw [heightList, glyphsArgs, List.length_append]
          simp only [List.isEmpty_cons, Bool.false_eq_true, if_false, List.length_cons]
          omega
    simp only [height, glyphs, List.cons_append, List.length_cons, List.length_append]
    omega

namespace Skeleton

/-- Is the token followed by an opening bracket? -/
def Called (s : Skeleton) (t : Token) : Prop :=
  ∃ c q, [⟨c, t.position⟩, ⟨'(', q⟩] <:+: s.cells

/-- Are the brackets nested at most two hundred deep, and is the expression, if the skeleton is one,
at most five hundred and twelve nodes high? -/
structure WithinLimits (s : Skeleton) : Prop where
  nesting : ∀ p, p <+: s.chars → p.count '(' ≤ p.count ')' + maxNesting
  height : ∀ e : Expr, e.WellFormed → e.spell s.placeholderAt = s.chars →
    e.tokenOrder = List.range s.placeholderCount → e.height ≤ Expr.maxHeight

/-- Short skeletons are within the limits. -/
theorem withinLimits_of_length_le {s : Skeleton} (h : s.cells.length ≤ maxNesting) :
    s.WithinLimits where
  nesting p hp := by
    have count : p.count '(' ≤ p.length := List.count_le_length
    have length := hp.length_le
    rw [chars, List.length_map] at length
    omega
  height e _ hchars _ := by
    have height := e.height_le_length_glyphs s.placeholderAt
    have length := congrArg List.length hchars
    rw [Expr.spell, List.length_map, chars, List.length_map] at length
    have : maxNesting ≤ Expr.maxHeight := by decide
    omega

section Formulas

variable {formula inner name : String} {s sᵢ s' : Skeleton} {tokens tokensᵢ tokens' : List Token}
  {g : Expr}

/-- A callee is followed by an opening bracket. -/
theorem called_of_mem_callees (h : ofFormula formula = .ok (s, tokens)) {e : Expr}
    (he : e.glyphs s.placeholderAt = (Stretch.ofSkeleton s).glyphs) {f : Nat}
    (hf : f ∈ e.callees) : ∃ t, tokens[f]? = some t ∧ s.Called t := by
  have hsub := @Expr.infix_of_mem_callees s.placeholderAt e f hf
  rw [he] at hsub
  -- the two glyphs are marks of the skeleton, and the marks are cells
  obtain ⟨marks, hmarks, hglyphs⟩ := List.infix_map_iff.1 hsub
  obtain ⟨m, m', rfl⟩ : ∃ m m', marks = [m, m'] :=
    List.length_eq_two.1 (by simpa using (congrArg List.length hglyphs).symm)
  simp only [List.map_cons, List.map_nil, List.cons.injEq, and_true] at hglyphs
  obtain ⟨hm, hm'⟩ := hglyphs
  have hplace : m.isPlace = true ∧ m.token = f := by
    have := congrArg Glyph.token hm
    simpa [Mark.glyph] using this.symm
  have hbracket : m'.char = '(' := (congrArg Glyph.char hm').symm
  have hcells : [m.cell, m'.cell] <:+: s.cells :=
    Mark.map_cell_ofCells 0 s.cells ▸ hmarks.map Mark.cell
  have htoken := (Mark.cell_of_mem_ofCells (hmarks.subset List.mem_cons_self) hplace.1).2
  rw [placeholders_of_ofFormula h, hplace.2, Nat.sub_zero, List.getElem?_map,
    Option.map_eq_some_iff] at htoken
  obtain ⟨t, ht, hcell⟩ := htoken
  refine ⟨t, ht, m.char, m'.position, ?_⟩
  have position : t.position = m.position := congrArg Cell.position hcell
  rw [position, ← hbracket]
  exact hcells

/-- If no call is of the name, callees are not replaced. -/
theorem inlined_of_mem_callees (h : ofFormula formula = .ok (s, tokens))
    (hcall : ∀ t ∈ tokens, t.text = name → ¬s.Called t) {e : Expr}
    (he : e.glyphs s.placeholderAt = (Stretch.ofSkeleton s).glyphs) {f : Nat} (hf : f ∈ e.callees)
    (inner : List String) (g : Expr) :
    Expr.inlined name inner (tokens.map (·.text)) g f =
      .operand (offset name inner (tokens.map (·.text)) f) := by
  obtain ⟨t, ht, hcalled⟩ := called_of_mem_callees h he hf
  refine Expr.inlined_of_ne fun hname => ?_
  rw [List.getElem?_map, ht] at hname
  exact hcall t (List.mem_of_getElem? ht) (Option.some.inj hname) hcalled

variable (h : ofFormula formula = .ok (s, tokens)) (hᵢ : ofFormula inner = .ok (sᵢ, tokensᵢ))
  (h' : ofFormula (splice formula tokens name inner) = .ok (s', tokens'))

include h hᵢ h'

theorem names_splice : tokens'.map (·.text) =
    spliceNames name (tokensᵢ.map (·.text)) (tokens.map (·.text)) := by
  obtain ⟨_, _, -, lexemes⟩ := ofFormula_splice h hᵢ name
  rw [names_of_ofFormula h', lexemes, Lexeme.names_splice, names_of_ofFormula h,
    names_of_ofFormula hᵢ]

theorem glyphs_splice (hg : Expr.ofSkeleton sᵢ tokensᵢ = .ok g) :
    (Stretch.ofSkeleton s).glyphs.flatMap
        (Expr.image (Expr.inlined name (tokensᵢ.map (·.text)) (tokens.map (·.text)) g)
          s'.placeholderAt) =
      (Stretch.ofSkeleton s').glyphs := by
  obtain ⟨_, _, -, lexemes⟩ := ofFormula_splice h hᵢ name
  have place := placeholderAt_of_ofFormula h'
  have glyphs := (Expr.derives_of_ofSkeleton hg).2.2.glyphs
  rw [glyphs_of_ofFormula hᵢ] at glyphs
  rw [names_splice h hᵢ h'] at place
  rw [glyphs_of_ofFormula h, glyphs_of_ofFormula h', lexemes, place, names_of_ofFormula h,
    names_of_ofFormula hᵢ]
  exact Lexeme.flatMap_image_inlined glyphs name _

variable (hcall : ∀ t ∈ tokens, t.text = name → ¬s.Called t)
  (hg : Expr.ofSkeleton sᵢ tokensᵢ = .ok g)

include hcall hg

/-- If the formula is the spelling of an expression, the new one is that of the expression with the
inner one in its place. -/
theorem glyphs_substitute_inlined {e : Expr}
    (he : e.glyphs s.placeholderAt = (Stretch.ofSkeleton s).glyphs) :
    let names := tokens.map (·.text)
    let inner := tokensᵢ.map (·.text)
    (e.substitute (Expr.inlined name inner names g) (offset name inner names)).glyphs
      s'.placeholderAt = (Stretch.ofSkeleton s').glyphs := by
  intro names inner
  rw [Expr.glyphs_substitute fun f hf => inlined_of_mem_callees h hcall he hf inner g, he]
  exact glyphs_splice h hᵢ h' hg

/-- Within the limits, one formula is read if and only if the other one is, and the new expression
is the old one with the inner one in its place. -/
theorem alike_ofSkeleton_splice (hlimits : s'.WithinLimits) :
    let names := tokens.map (·.text)
    let inner := tokensᵢ.map (·.text)
    Alike (fun _ _ => True)
      (fun e' e => e' = e.substitute (Expr.inlined name inner names g) (offset name inner names))
      (Expr.ofSkeleton s' tokens') (Expr.ofSkeleton s tokens) := by
  intro names inner
  have hleaf := Expr.isLeaf_inlined name inner names g
  have count := placeholderCount_of_ofFormula h
  have count' := placeholderCount_of_ofFormula h'
  -- the height of the new expression is limited, and so that of the old one is
  have substituted {e : Expr} (hwf : e.WellFormed)
      (he : e.glyphs s.placeholderAt = (Stretch.ofSkeleton s).glyphs) :
      let e' := e.substitute (Expr.inlined name inner names g) (offset name inner names)
      e'.WellFormed ∧ e'.spell s'.placeholderAt = s'.chars ∧
        e'.tokenOrder = List.range tokens'.length ∧ e'.height ≤ Expr.maxHeight := by
    intro e'
    have hwf' : e'.WellFormed := Expr.wellFormed_substitute hleaf
      (Expr.wellFormed_inlined (Expr.derives_of_ofSkeleton hg).2.2.wellFormed) hwf
    obtain ⟨chars, order⟩ := Expr.glyphs_eq_ofSkeleton_iff.1
      (glyphs_substitute_inlined h hᵢ h' hcall hg he)
    exact ⟨hwf', chars, count' ▸ order, hlimits.height e' hwf' chars order⟩
  refine .of_ok (fun e' he' => ?_) fun e he => ?_
  · have derives := (Expr.derives_of_ofSkeleton he').2.2
    obtain ⟨e, hwf, -, he⟩ := Expr.exists_of_glyphs s'.isPlaceholder_placeholderAt hleaf
      derives.wellFormed (spelt_of_ofFormula h)
      ((glyphs_splice h hᵢ h' hg).trans derives.glyphs.symm)
    obtain ⟨-, -, -, hheight⟩ := substituted hwf he
    obtain ⟨chars, order⟩ := Expr.glyphs_eq_ofSkeleton_iff.1 he
    have nesting := @Expr.prefix_count_of_flatMap_image s'.placeholderAt
      (Expr.inlined name inner names g) s'.isPlaceholder_placeholderAt maxNesting _
      (spelt_of_ofFormula h).marked
    rw [glyphs_splice h hᵢ h' hg, ← Stretch.chars_eq_map_glyphs, Stretch.chars_ofSkeleton,
      ← Stretch.chars_eq_map_glyphs, Stretch.chars_ofSkeleton] at nesting
    exact ⟨e, Expr.ofSkeleton_of_spell hwf chars (count ▸ order) (nesting hlimits.nesting)
      (Nat.le_trans (Expr.height_le_substitute _ _ e) hheight)⟩
  · have derives := (Expr.derives_of_ofSkeleton he).2.2
    obtain ⟨hwf', chars, order, hheight⟩ := substituted derives.wellFormed derives.glyphs
    exact ⟨_, Expr.ofSkeleton_of_spell hwf' chars order hlimits.nesting hheight, rfl⟩

end Formulas

end Skeleton

end Formulary
