import Formulary.Proofs.Expr.Spelling
import Formulary.Proofs.Outcome
import Formulary.Template

/-! # Filled templates

A template is filled exactly if its placeholders are those of the tokens and there is a text for
each of them.  The texts then stand where the placeholders stood.
-/

namespace Formulary.Template

/-- Texts put in the places of placeholders, as far as there are texts. -/
def substitute : (template : List Char) → List String → List Char
  | [], _ => []
  | c :: cs, texts =>
    if isPlaceholder c then
      match texts with
      | text :: texts => text.toList ++ substitute cs texts
      | [] => substitute cs []
    else c :: substitute cs texts

theorem fillChars_eq_ok_iff {template out : List Char} {tokens : List Token}
    {texts : List String} :
    fillChars template tokens texts = .ok out ↔
      template.filter isPlaceholder = tokens.map Token.placeholder ∧
        texts.length = tokens.length ∧ out = substitute template texts := by
  induction template generalizing tokens texts out with
  | nil =>
    cases tokens with
    | nil =>
      cases texts with
      | nil => exact ⟨fun h => ⟨rfl, rfl, (Except.ok.inj h).symm⟩, fun ⟨_, _, h⟩ => h ▸ rfl⟩
      | cons text texts => simp [fillChars]
    | cons t tokens => simp [fillChars]
  | cons c cs ih =>
    by_cases hc : isPlaceholder c = true
    · cases tokens with
      | nil => simp [fillChars, hc]
      | cons t tokens =>
        cases texts with
        | nil => simp [fillChars, hc]
        | cons text texts =>
          by_cases ht : t.placeholder = c
          · simp only [fillChars, substitute, hc, ht, if_true, bind_eq_ok_iff, ih, pure_eq_ok,
              Except.ok.injEq, List.filter_cons, List.map_cons, List.length_cons]
            grind
          · simp [fillChars, hc, ht, Ne.symm ht]
    · have step : fillChars (c :: cs) tokens texts =
          (fillChars cs tokens texts >>= fun rest => .ok (c :: rest)) := by
        simp [fillChars, hc]
      simp only [step, substitute, hc, bind_eq_ok_iff, ih, Except.ok.injEq, List.filter_cons]
      grind

/-- A template that does not fit is reported at a token, or at the beginning of the formula. -/
theorem failsOnly_fillChars (template : List Char) (tokens : List Token) (texts : List String) :
    FailsOnly (Error.DefectAt (0 :: tokens.map (·.position)))
      (fillChars template tokens texts) := by
  have weaken : ∀ {t : Token} {tokens : List Token} {err : Error},
      Error.DefectAt (0 :: tokens.map (·.position)) err →
        Error.DefectAt (0 :: (t :: tokens).map (·.position)) err := by
    intro t tokens err
    exact Error.DefectAt.mono (List.cons_subset_cons 0 (List.subset_cons_self _ _))
  fun_induction fillChars template tokens texts with
  | case1 => exact failsOnly_ok _ []
  | case2 => exact failsOnly_error.2 (.malformed List.mem_cons_self _)
  | case3 => exact failsOnly_error.2 (.malformed (List.mem_cons_of_mem _ List.mem_cons_self) _)
  | case4 cs t tokens text texts _ ih =>
    exact (ih.mono fun _ => weaken).bind fun _ _ => failsOnly_ok _ _
  | case5 => exact failsOnly_error.2 (.malformed (List.mem_cons_of_mem _ List.mem_cons_self) _)
  | case6 => exact failsOnly_error.2 (.malformed List.mem_cons_self _)
  | case7 c cs tokens texts _ ih => exact ih.bind fun _ _ => failsOnly_ok _ _

theorem failsOnly_fill (template : String) (tokens : List Token) (texts : List String) :
    FailsOnly (Error.DefectAt (0 :: tokens.map (·.position))) (fill template tokens texts) :=
  (failsOnly_fillChars template.toList tokens texts).bind fun _ _ => failsOnly_ok _ _

/-- Whether a template can be filled, and what is wrong if not, does not depend on the texts. -/
theorem alike_fillChars {template : List Char} {tokens : List Token} {texts texts' : List String}
    (h : texts.length = texts'.length) :
    Alike Eq (fun _ _ => True) (fillChars template tokens texts)
      (fillChars template tokens texts') := by
  induction template generalizing tokens texts texts' with
  | nil =>
    cases tokens with
    | cons t tokens => exact .error rfl
    | nil =>
      cases texts with
      | nil =>
        obtain rfl := List.length_eq_zero_iff.1 h.symm
        exact .ok trivial
      | cons text texts =>
        obtain ⟨text', texts', rfl⟩ := List.exists_cons_of_length_eq_add_one h.symm
        exact .error rfl
  | cons c cs ih =>
    unfold fillChars
    split
    · cases tokens with
      | nil => exact .error rfl
      | cons t tokens =>
        cases texts with
        | nil =>
          obtain rfl := List.length_eq_zero_iff.1 h.symm
          exact .error rfl
        | cons text texts =>
          obtain ⟨text', texts', rfl⟩ := List.exists_cons_of_length_eq_add_one h.symm
          dsimp only
          split
          · exact (ih (Nat.succ.inj h)).bind fun _ _ _ _ _ => .ok trivial
          · exact .error rfl
    · exact (ih h).bind fun _ _ _ _ _ => .ok trivial

theorem alike_fill {template : String} {tokens : List Token} {texts texts' : List String}
    (h : texts.length = texts'.length) :
    Alike Eq (fun _ _ => True) (fill template tokens texts) (fill template tokens texts') :=
  (alike_fillChars h).bind fun _ _ _ _ _ => .ok trivial

/-- Of the tokens only their placeholders matter to what a template is filled to. -/
theorem alike_fill_of_placeholders {template : String} {tokens tokens' : List Token}
    {texts : List String} (h : tokens'.map Token.placeholder = tokens.map Token.placeholder) :
    Alike (fun _ _ => True) Eq (fill template tokens' texts) (fill template tokens texts) := by
  have length : tokens'.length = tokens.length := by simpa using congrArg List.length h
  have same : Alike (fun _ _ => True) Eq (fillChars template.toList tokens' texts)
      (fillChars template.toList tokens texts) :=
    .of_ok_iff fun out => by rw [fillChars_eq_ok_iff, fillChars_eq_ok_iff, h, length]
  exact same.bind fun out out' _ _ heq => .ok (congrArg String.ofList heq)

/-- The text that is drawn for a glyph. -/
def drawn (texts : List String) (g : Glyph) : List Char :=
  match g.token with
  | some i => (texts[i]?.getD "").toList
  | none => [g.char]

/-- Where the tokens are numbered in order, each placeholder gets the text of its token. -/
theorem substitute_map_char {gs : List Glyph} (hg : Glyph.Marked gs) {k : Nat}
    {texts : List String} (h : gs.filterMap Glyph.token = List.range' k (texts.length - k)) :
    substitute (gs.map Glyph.char) (texts.drop k) = gs.flatMap (drawn texts) := by
  induction gs generalizing k with
  | nil => rfl
  | cons g gs ih =>
    obtain ⟨hm, hgs⟩ := Glyph.marked_cons.1 hg
    obtain ⟨c, token⟩ := g
    cases token with
    | none =>
      have hc : isPlaceholder c = false := hm.symm
      simpa [substitute, hc, drawn] using ih hgs (by simpa using h)
    | some i =>
      have hc : isPlaceholder c = true := hm.symm
      have hk : k < texts.length := by
        refine Nat.lt_of_not_le fun hle => ?_
        simp [Nat.sub_eq_zero_of_le hle] at h
      obtain ⟨n, hn⟩ := Nat.exists_eq_add_of_lt hk
      have left : texts.length - k = (texts.length - (k + 1)) + 1 := by omega
      rw [left, List.range'_succ] at h
      obtain ⟨rfl, h⟩ : i = k ∧ gs.filterMap Glyph.token =
          List.range' (k + 1) (texts.length - (k + 1)) := by simpa using h
      rw [List.drop_eq_getElem_cons hk]
      simp only [List.map_cons, substitute, hc, if_true, ih hgs h, List.flatMap_cons, drawn,
        List.getElem?_eq_getElem hk, Option.getD_some]

/-! ## The filled text -/

/-- What stands in a filled template for the character `c` at index `i` of the template: a
placeholder with `k` placeholders before it gives way to text number `k`. -/
def standIn (template : List Char) (texts : List String) : Char × Nat → List Char
  | (c, i) =>
    if isPlaceholder c then (texts[(template.take i).countP isPlaceholder]?.getD "").toList
    else [c]

/-- The template with what stands in for each of its characters. -/
def replacePlaceholders (template : List Char) (texts : List String) : List Char :=
  template.zipIdx.flatMap (standIn template texts)

theorem substitute_cons (c : Char) (cs : List Char) (texts : List String) :
    substitute (c :: cs) texts =
      if isPlaceholder c then (texts.head?.getD "").toList ++ substitute cs texts.tail
      else c :: substitute cs texts := by
  cases texts <;> simp [substitute]

theorem substitute_drop (front back : List Char) (texts : List String) :
    substitute back (texts.drop (front.countP isPlaceholder)) =
      (back.zipIdx front.length).flatMap (standIn (front ++ back) texts) := by
  induction back generalizing front with
  | nil => rfl
  | cons c cs ih =>
    have rest := ih (front ++ [c])
    rw [List.append_assoc, List.singleton_append, List.length_append, List.length_singleton,
      List.countP_append, List.countP_singleton] at rest
    rw [List.zipIdx_cons, List.flatMap_cons, ← rest, substitute_cons, standIn, List.take_left,
      List.head?_drop, List.tail_drop]
    split <;> simp_all

theorem substitute_eq_replacePlaceholders (template : List Char) (texts : List String) :
    substitute template texts = replacePlaceholders template texts :=
  substitute_drop [] template texts

/-- A template is filled exactly if its placeholders are those of the tokens, in order, and there is
a text for each token.  Each placeholder then gives way to the text of its rank, and nothing else
changes, whatever there is in the texts. -/
theorem fill_eq_ok_iff {template out : String} {tokens : List Token} {texts : List String} :
    fill template tokens texts = .ok out ↔
      template.toList.filter isPlaceholder = tokens.map Token.placeholder ∧
        texts.length = tokens.length ∧
        out = String.ofList (replacePlaceholders template.toList texts) := by
  simp only [fill, bind_eq_ok_iff, fillChars_eq_ok_iff, pure_eq_ok, Except.ok.injEq,
    substitute_eq_replacePlaceholders]
  constructor
  · rintro ⟨_, ⟨hplaces, hlength, rfl⟩, rfl⟩
    exact ⟨hplaces, hlength, rfl⟩
  · rintro ⟨hplaces, hlength, rfl⟩
    exact ⟨_, ⟨hplaces, hlength, rfl⟩, rfl⟩

/-- A placeholder in a text that is filled in stays there. -/
example : fill "□ + ■" [⟨"a", 0, 0, .ordinary⟩, ⟨"sqrt", 1, 2, .special .radical⟩] ["■", "b"] =
    .ok "■ + b" := by rfl

end Formulary.Template
