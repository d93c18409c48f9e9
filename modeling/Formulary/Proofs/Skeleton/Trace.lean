import Formulary.Proofs.Skeleton.Lexeme
import Mathlib.Data.List.Pairwise

/-! # Nothing is lost

Every cell of a skeleton goes back to a stretch of the formula: an operator, bracket or comma to its
own character, a placeholder to the text of its token.  The stretches follow each other in the
formula with nothing but blanks around them.
-/

namespace Formulary

namespace Word

/-- The index just after the word. -/
def stop (w : Word) : Nat :=
  w.position + w.text.length

end Word

/-! ## Stretches of a text -/

/-- The words make up the text that begins at `i`, with blanks around them. -/
inductive Fills : (i : Nat) → List Char → List Word → Prop where
  | nil {i : Nat} : Fills i [] []
  | blank {i : Nat} {c : Char} {cs : List Char} {ws : List Word} :
    isBlank c = true → Fills (i + 1) cs ws → Fills i (c :: cs) ws
  | word {w : Word} {cs : List Char} {ws : List Word} :
    w.text ≠ [] → Fills w.stop cs ws → Fills w.position (w.text ++ cs) (w :: ws)

namespace Fills

variable {i : Nat} {cs : List Char} {ws : List Word}

theorem append (h : Fills i cs ws) {ds : List Char} {vs : List Word}
    (h' : Fills (i + cs.length) ds vs) : Fills i (cs ++ ds) (ws ++ vs) := by
  induction h with
  | nil => exact h'
  | blank hc _ ih =>
    refine .blank hc (ih ?_)
    rwa [Nat.add_assoc, Nat.add_comm 1]
  | @word w cs ws hne _ ih =>
    rw [List.append_assoc]
    refine .word hne (ih ?_)
    rwa [Word.stop, Nat.add_assoc, ← List.length_append]

theorem blanks {b : List Char} (hb : ∀ c ∈ b, isBlank c = true) : Fills i b [] := by
  induction b generalizing i with
  | nil => exact .nil
  | cons c b ih =>
    obtain ⟨hc, hb⟩ := List.forall_mem_cons.1 hb
    exact .blank hc (ih hb)

theorem ofWord {text : List Char} (hne : text ≠ []) : Fills i text [⟨i, text⟩] := by
  have := @Fills.word ⟨i, text⟩ [] [] hne .nil
  rwa [List.append_nil] at this

/-- Single characters, one behind the other. -/
theorem ofChars (i : Nat) (cs : List Char) :
    Fills i cs ((cs.zipIdx i).map fun (c, k) => ⟨k, [c]⟩) := by
  induction cs generalizing i with
  | nil => exact .nil
  | cons c cs ih => exact @Fills.word ⟨i, [c]⟩ cs _ (List.cons_ne_nil c []) (ih (i + 1))

/-- A word stands in the text where its position says. -/
theorem exists_append (h : Fills i cs ws) {w : Word} (hw : w ∈ ws) :
    ∃ xs ys, cs = xs ++ (w.text ++ ys) ∧ w.position = i + xs.length := by
  induction h with
  | nil => cases hw
  | @blank i c cs ws _ _ ih =>
    obtain ⟨xs, ys, rfl, hpos⟩ := ih hw
    exact ⟨c :: xs, ys, rfl, by rw [hpos, List.length_cons]; omega⟩
  | @word v cs ws _ _ ih =>
    rcases List.mem_cons.1 hw with rfl | hw
    · exact ⟨[], cs, rfl, rfl⟩
    · obtain ⟨xs, ys, rfl, hpos⟩ := ih hw
      refine ⟨v.text ++ xs, ys, by simp, ?_⟩
      rw [hpos, Word.stop, List.length_append, Nat.add_assoc]

theorem text_ne_nil (h : Fills i cs ws) {w : Word} (hw : w ∈ ws) : w.text ≠ [] := by
  induction h with
  | nil => cases hw
  | blank _ _ ih => exact ih hw
  | word hne _ ih =>
    rcases List.mem_cons.1 hw with rfl | hw
    · exact hne
    · exact ih hw

/-- The words follow each other. -/
theorem pairwise (h : Fills i cs ws) : ws.Pairwise fun v w => v.stop ≤ w.position := by
  induction h with
  | nil => exact .nil
  | blank _ _ ih => exact ih
  | @word v cs ws _ hrest ih =>
    refine .cons (fun w hw => ?_) ih
    obtain ⟨xs, -, -, hpos⟩ := hrest.exists_append hw
    omega

/-- What is not in a word is blank. -/
theorem covered (h : Fills i cs ws) {k : Nat} {c : Char} (hc : cs[k]? = some c) :
    isBlank c = true ∨ ∃ w ∈ ws, w.position ≤ i + k ∧ i + k < w.stop := by
  induction h generalizing k with
  | nil => cases hc
  | @blank i d cs ws hd _ ih =>
    cases k with
    | zero =>
      cases hc
      exact .inl hd
    | succ k =>
      have := ih hc
      rwa [Nat.add_assoc, Nat.add_comm 1] at this
  | @word v cs ws _ _ ih =>
    by_cases hk : k < v.text.length
    · exact .inr ⟨v, List.mem_cons_self, by omega, by rw [Word.stop]; omega⟩
    · rw [List.getElem?_append_right (by omega)] at hc
      refine (ih hc).imp id ?_
      rintro ⟨w, hw, hle, hlt⟩
      refine ⟨w, List.mem_cons_of_mem v hw, ?_⟩
      have : v.stop + (k - v.text.length) = v.position + k := by rw [Word.stop]; omega
      rw [this] at hle hlt
      exact ⟨hle, hlt⟩

/-- There are no more words than characters. -/
theorem length_le (h : Fills i cs ws) : ws.length ≤ cs.length := by
  induction h with
  | nil => exact Nat.le_refl 0
  | blank _ _ ih => exact Nat.le_succ_of_le ih
  | word hne _ ih =>
    have := List.length_pos_iff.2 hne
    rw [List.length_cons, List.length_append]
    omega

end Fills

/-! ## What a cell goes back to -/

/-- A character of a skeleton and the stretch of the formula that it stands for. -/
structure Trace where
  char : Char
  word : Word
deriving DecidableEq, Repr

namespace Trace

def cell (t : Trace) : Cell :=
  ⟨t.char, t.word.position⟩

/-- Is it the trace of a token? -/
def isToken (t : Trace) : Bool :=
  isPlaceholder t.char

/-- A character stands for itself or, as a placeholder, for a word without blanks. -/
inductive Valid : Trace → Prop where
  | char {c : Char} (i : Nat) : isPlaceholder c = false → Valid ⟨c, ⟨i, [c]⟩⟩
  | token {w : Word} : (∀ c ∈ w.text, isBlank c = false) → Valid ⟨w.kind.placeholder, w⟩

theorem Valid.text_eq {t : Trace} (h : t.Valid) (ht : t.isToken = false) :
    t.word.text = [t.char] := by
  cases h with
  | char i _ => rfl
  | token _ =>
    rw [isToken, TokenKind.isPlaceholder_placeholder] at ht
    cases ht

theorem Valid.char_eq {t : Trace} (h : t.Valid) (ht : t.isToken = true) :
    t.char = t.word.kind.placeholder ∧ ∀ c ∈ t.word.text, isBlank c = false := by
  cases h with
  | char i hc =>
    rw [isToken, hc] at ht
    cases ht
  | token hblank => exact ⟨rfl, hblank⟩

end Trace

namespace Piece

def traces (i : Nat) : Piece → List Trace
  | symbol text => (text.zipIdx i).map fun (c, k) => ⟨c, k, [c]⟩
  | run text => ((run text).word? i).toList.map fun w => ⟨w.kind.placeholder, w⟩

def tracesOf (pieces : List (Nat × Piece)) : List Trace :=
  pieces.flatMap fun (i, p) => p.traces i

theorem map_cell_traces (i : Nat) (p : Piece) : (p.traces i).map Trace.cell = p.cells i := by
  cases p with
  | symbol text => simp [traces, cells, Trace.cell, Function.comp_def]
  | run text => cases h : (run text).word? i <;> simp [traces, cells, Trace.cell, h]

theorem map_cell_tracesOf (pieces : List (Nat × Piece)) :
    (tracesOf pieces).map Trace.cell = Skeleton.cellsOf pieces := by
  simp [tracesOf, Skeleton.cellsOf, List.map_flatMap, map_cell_traces]

/-- A piece without a gap is made up of the words of its traces. -/
theorem fills_traces {p : Piece} (i : Nat) (h : .gap ∉ p.lexemes) :
    Fills i p.text ((p.traces i).map Trace.word) := by
  cases p with
  | symbol text =>
    have := Fills.ofChars i text
    simpa [traces, Function.comp_def] using this
  | run text =>
    obtain ⟨b, b', hb, hb', -, htext, hindent⟩ := exists_of_gap_not_mem h
    rw [text_run]
    by_cases hne : Run.word text = []
    · have none : (run text).traces i = [] := by simp [traces, word?, hne]
      rw [none, htext, hne]
      exact (Fills.blanks hb).append (Fills.blanks hb')
    · have one : ((run text).traces i).map Trace.word = [⟨i + b.length, Run.word text⟩] := by
        simp [traces, word?, hne, hindent]
      rw [one]
      conv => arg 2; rw [htext]
      exact (Fills.blanks hb).append ((Fills.ofWord hne).append (Fills.blanks hb'))

theorem fills_tracesOf {ps : List Piece} (i : Nat) (h : .gap ∉ ps.flatMap lexemes) :
    Fills i (ps.flatMap text) ((tracesOf (locate i ps)).map Trace.word) := by
  induction ps generalizing i with
  | nil => exact .nil
  | cons p ps ih =>
    rw [List.flatMap_cons, List.mem_append, not_or] at h
    rw [locate, tracesOf, List.flatMap_cons, List.flatMap_cons, List.map_append]
    exact (fills_traces i h.1).append (ih _ h.2)

theorem valid_of_mem_traces {p : Piece} {i : Nat} (hgap : .gap ∉ p.lexemes)
    (hplain : ∀ c ∈ p.text, isPlaceholder c = false) {t : Trace} (ht : t ∈ p.traces i) :
    t.Valid := by
  cases p with
  | symbol text =>
    obtain ⟨⟨c, k⟩, hck, rfl⟩ := List.mem_map.1 ht
    exact .char k (hplain c (List.fst_mem_of_mem_zipIdx hck))
  | run text =>
    obtain ⟨w, hw, rfl⟩ := List.mem_map.1 ht
    obtain ⟨-, -, -, -, hblank, -⟩ := exists_of_gap_not_mem hgap
    obtain ⟨-, rfl⟩ : _ ∧ ⟨i + Run.indent text, Run.word text⟩ = w := by
      simpa [word?] using Option.mem_toList.1 hw
    exact .token hblank

theorem valid_of_mem_tracesOf {ps : List Piece} {i : Nat} (hgap : .gap ∉ ps.flatMap lexemes)
    (hplain : ∀ c ∈ ps.flatMap text, isPlaceholder c = false) {t : Trace}
    (ht : t ∈ tracesOf (locate i ps)) : t.Valid := by
  induction ps generalizing i with
  | nil => cases ht
  | cons p ps ih =>
    rw [List.flatMap_cons, List.mem_append, not_or] at hgap
    rw [List.flatMap_cons, List.forall_mem_append] at hplain
    rw [locate, tracesOf, List.flatMap_cons, List.mem_append] at ht
    rcases ht with ht | ht
    · exact valid_of_mem_traces hgap.1 hplain.1 ht
    · exact ih hgap.2 hplain.2 ht

/-- The words of the pieces are those of the traces of tokens. -/
theorem word?_eq_filter_traces (i : Nat) {p : Piece}
    (hplain : ∀ c ∈ p.text, isPlaceholder c = false) :
    (p.word? i).toList = ((p.traces i).filter Trace.isToken).map Trace.word := by
  cases p with
  | symbol text =>
    have none : ((symbol text).traces i).filter Trace.isToken = [] := by
      refine List.filter_eq_nil_iff.2 fun t ht => ?_
      obtain ⟨⟨c, k⟩, hck, rfl⟩ := List.mem_map.1 ht
      simp [Trace.isToken, hplain c (List.fst_mem_of_mem_zipIdx hck)]
    rw [none]
    rfl
  | run text =>
    cases h : (run text).word? i with
    | none => simp [traces, h]
    | some w => simp [traces, h, Trace.isToken, Word.kind, TokenKind.isPlaceholder_placeholder]

theorem filterMap_word?_locate (i : Nat) {ps : List Piece}
    (hplain : ∀ c ∈ ps.flatMap text, isPlaceholder c = false) :
    (locate i ps).filterMap (fun (i, p) => p.word? i) =
      ((tracesOf (locate i ps)).filter Trace.isToken).map Trace.word := by
  induction ps generalizing i with
  | nil => rfl
  | cons p ps ih =>
    rw [List.flatMap_cons, List.forall_mem_append] at hplain
    rw [locate, tracesOf, List.flatMap_cons, List.filter_append, List.map_append,
      ← word?_eq_filter_traces i hplain.1, ← tracesOf, ← ih _ hplain.2]
    cases h : p.word? i <;> simp [h]

end Piece

/-! ## Formulas -/

namespace Skeleton

/-- The stretches of the formula that the tokens and the characters between them take up. -/
def extents (s : Skeleton) (tokens : List Token) : List Word :=
  (tokens.map fun t => ⟨t.position, t.text.toList⟩) ++
    (s.cells.filter (!isPlaceholder ·.char)).map fun c => ⟨c.position, [c.char]⟩

/-- The skeleton and the tokens go back to the formula, and leave out nothing but blanks. -/
structure Traced (s : Skeleton) (tokens : List Token) (formula : List Char) : Prop where
  increasing : s.cells.Pairwise (·.position < ·.position)
  inside : ∀ c ∈ s.cells, c.position < formula.length
  kept : ∀ c ∈ s.cells, isPlaceholder c.char = false → formula[c.position]? = some c.char
  /-- The placeholders are those of the tokens, in their order. -/
  placeholders : s.cells.filter (isPlaceholder ·.char) =
    tokens.map fun t => ⟨t.placeholder, t.position⟩
  ranks : tokens.map (·.index) = List.range tokens.length
  text_ne_nil : ∀ t ∈ tokens, t.text.toList ≠ []
  isBlank_text : ∀ t ∈ tokens, ∀ c ∈ t.text.toList, isBlank c = false
  /-- The text of a token is found at its position. -/
  found : ∀ t ∈ tokens, t.text.toList <+: formula.drop t.position
  disjoint : (s.extents tokens).Pairwise fun v w => v.stop ≤ w.position ∨ w.stop ≤ v.position
  covered : ∀ (k : Nat) (c : Char), formula[k]? = some c →
    isBlank c = true ∨ ∃ w ∈ s.extents tokens, w.position ≤ k ∧ k < w.stop

/-- The tokens of traces. -/
def tokensOfTraces (ts : List Trace) : List Token :=
  ((ts.filter Trace.isToken).map Trace.word).zipIdx.map fun (w, k) => w.token k

theorem map_tokensOfTraces {α : Type} {f : Token → α} {g : Word → α}
    (h : ∀ w k, f (w.token k) = g w) (ts : List Trace) :
    (tokensOfTraces ts).map f = (ts.filter Trace.isToken).map fun t => g t.word := by
  rw [tokensOfTraces, Word.map_tokens h, List.map_map]
  rfl

theorem exists_of_mem_tokensOfTraces {ts : List Trace} {token : Token}
    (h : token ∈ tokensOfTraces ts) :
    ∃ t ∈ ts, t.isToken = true ∧ token.position = t.word.position ∧
      token.text.toList = t.word.text := by
  obtain ⟨⟨w, k⟩, hwk, rfl⟩ := List.mem_map.1 h
  obtain ⟨t, ht, rfl⟩ := List.mem_map.1 (List.fst_mem_of_mem_zipIdx hwk)
  obtain ⟨hmem, htoken⟩ := List.mem_filter.1 ht
  exact ⟨t, hmem, htoken, rfl, String.toList_ofList⟩

/-- Tokens and other characters take up the stretches of all traces. -/
theorem extents_perm {s : Skeleton} {ts : List Trace} (hvalid : ∀ t ∈ ts, t.Valid)
    (hcells : s.cells = ts.map Trace.cell) :
    (s.extents (tokensOfTraces ts)).Perm (ts.map Trace.word) := by
  have words : (tokensOfTraces ts).map (fun t => (⟨t.position, t.text.toList⟩ : Word)) =
      (ts.filter Trace.isToken).map Trace.word :=
    @map_tokensOfTraces _ _ id (fun w _ => congrArg (Word.mk w.position) String.toList_ofList) ts
  have chars : (s.cells.filter (!isPlaceholder ·.char)).map
      (fun c => (⟨c.position, [c.char]⟩ : Word)) =
        (ts.filter (!·.isToken)).map Trace.word := by
    rw [hcells, List.filter_map, List.map_map]
    refine List.map_congr_left fun t ht => ?_
    obtain ⟨hmem, htoken⟩ := List.mem_filter.1 ht
    have text := (hvalid t hmem).text_eq (Bool.not_eq_eq_eq_not.1 htoken)
    exact congrArg (Word.mk t.word.position) text.symm
  rw [extents, words, chars, ← List.map_append]
  exact (List.filter_append_perm Trace.isToken ts).map Trace.word

theorem traced_of_traces {s : Skeleton} {ts : List Trace} {formula : List Char}
    (hfills : Fills 0 formula (ts.map Trace.word)) (hvalid : ∀ t ∈ ts, t.Valid)
    (hcells : s.cells = ts.map Trace.cell) : s.Traced (tokensOfTraces ts) formula := by
  have perm := extents_perm hvalid hcells
  have nonempty : ∀ t ∈ ts, t.word.text ≠ [] := fun t ht =>
    hfills.text_ne_nil (List.mem_map_of_mem ht)
  have place : ∀ t ∈ ts, ∃ xs ys, formula = xs ++ (t.word.text ++ ys) ∧
      t.word.position = xs.length := by
    intro t ht
    have := hfills.exists_append (List.mem_map_of_mem ht)
    simpa only [Nat.zero_add] using this
  constructor
  case increasing =>
    rw [hcells, List.pairwise_map]
    refine (List.pairwise_map.1 hfills.pairwise).imp_of_mem fun {t u} ht _ hstop => ?_
    have := List.length_pos_iff.2 (nonempty t ht)
    rw [Word.stop] at hstop
    simp only [Trace.cell]
    omega
  case inside =>
    intro c hc
    obtain ⟨t, ht, rfl⟩ := List.mem_map.1 (hcells ▸ hc)
    obtain ⟨xs, ys, hformula, hpos⟩ := place t ht
    have := List.length_pos_iff.2 (nonempty t ht)
    simp only [Trace.cell, hpos, hformula, List.length_append]
    omega
  case kept =>
    intro c hc hplain
    obtain ⟨t, ht, rfl⟩ := List.mem_map.1 (hcells ▸ hc)
    obtain ⟨xs, ys, hformula, hpos⟩ := place t ht
    rw [(hvalid t ht).text_eq hplain] at hformula
    simp [Trace.cell, hformula, hpos]
  case placeholders =>
    rw [hcells, List.filter_map,
      @map_tokensOfTraces _ _ (fun w => (⟨w.kind.placeholder, w.position⟩ : Cell)) fun _ _ => rfl]
    refine List.map_congr_left fun t ht => ?_
    obtain ⟨hmem, htoken⟩ := List.mem_filter.1 ht
    exact congrArg (Cell.mk · t.word.position) ((hvalid t hmem).char_eq htoken).1
  case ranks =>
    have index : (tokensOfTraces ts).map (·.index) =
        ((ts.filter Trace.isToken).map Trace.word).zipIdx.map Prod.snd := List.map_map
    rw [index, List.zipIdx_map_snd, List.range_eq_range']
    simp [tokensOfTraces]
  case text_ne_nil =>
    intro token htoken
    obtain ⟨t, ht, -, -, htext⟩ := exists_of_mem_tokensOfTraces htoken
    rw [htext]
    exact nonempty t ht
  case isBlank_text =>
    intro token htoken
    obtain ⟨t, ht, hplace, -, htext⟩ := exists_of_mem_tokensOfTraces htoken
    rw [htext]
    exact ((hvalid t ht).char_eq hplace).2
  case found =>
    intro token htoken
    obtain ⟨t, ht, -, hpos, htext⟩ := exists_of_mem_tokensOfTraces htoken
    obtain ⟨xs, ys, hformula, hxs⟩ := place t ht
    rw [htext, hpos, hxs, hformula, List.drop_left]
    exact List.prefix_append _ _
  case disjoint =>
    refine (List.Perm.pairwise_iff (fun h => h.symm) perm).2 ?_
    exact hfills.pairwise.imp fun h => .inl h
  case covered =>
    intro k c hc
    refine (hfills.covered hc).imp id ?_
    rintro ⟨w, hw, hle, hlt⟩
    rw [Nat.zero_add] at hle hlt
    exact ⟨w, perm.mem_iff.2 hw, hle, hlt⟩

/-- Each cell is the beginning of a stretch. -/
theorem Traced.exists_extent {s : Skeleton} {tokens : List Token} {formula : List Char}
    (h : s.Traced tokens formula) {c : Cell} (hc : c ∈ s.cells) :
    ∃ w ∈ s.extents tokens, w.position = c.position := by
  cases hplace : isPlaceholder c.char with
  | false =>
    have kept : c ∈ s.cells.filter (!isPlaceholder ·.char) :=
      List.mem_filter.2 ⟨hc, by rw [hplace]; rfl⟩
    exact ⟨_, List.mem_append_right _ (List.mem_map_of_mem kept), rfl⟩
  | true =>
    have place : c ∈ s.cells.filter (isPlaceholder ·.char) := List.mem_filter.2 ⟨hc, hplace⟩
    rw [h.placeholders] at place
    obtain ⟨t, ht, rfl⟩ := List.mem_map.1 place
    exact ⟨_, List.mem_append_left _ (List.mem_map_of_mem ht), rfl⟩

/-- No cell stands strictly inside the text of a token. -/
theorem Traced.not_inside {s : Skeleton} {tokens : List Token} {formula : List Char}
    (h : s.Traced tokens formula) {c : Cell} (hc : c ∈ s.cells) {t : Token} (ht : t ∈ tokens) :
    ¬(t.position < c.position ∧ c.position < t.position + t.text.toList.length) := by
  rintro ⟨hlt, hgt⟩
  obtain ⟨w, hw, hpos⟩ := h.exists_extent hc
  have here : (⟨t.position, t.text.toList⟩ : Word) ∈ s.extents tokens :=
    List.mem_append_left _ (List.mem_map_of_mem ht)
  have : Std.Symm fun v w : Word => v.stop ≤ w.position ∨ w.stop ≤ v.position :=
    ⟨fun _ _ => Or.symm⟩
  have apart := h.disjoint.forall here hw fun heq => by
    rw [← heq] at hpos
    exact Nat.lt_irrefl _ (hpos ▸ hlt)
  simp only [Word.stop] at apart
  omega

section OfFormula

variable {formula : String} {s : Skeleton} {tokens : List Token}
  (h : ofFormula formula = .ok (s, tokens))

include h

/-- Cells and tokens come from traces that fill the formula. -/
theorem exists_traces_of_ofFormula :
    ∃ ts : List Trace, Fills 0 formula.toList (ts.map Trace.word) ∧ (∀ t ∈ ts, t.Valid) ∧
      s.cells = ts.map Trace.cell ∧ tokens = tokensOfTraces ts := by
  obtain ⟨hplain, hgap, -, hcells, -, rfl⟩ := ofFormula_eq_ok_iff.1 h
  have text := Piece.flatMap_text_ofFormula formula.toList
  have fills := Piece.fills_tracesOf 0 hgap
  rw [← Piece.ofFormula, text] at fills
  rw [← text] at hplain
  rw [← Piece.map_cell_tracesOf] at hcells
  refine ⟨_, fills, fun t => Piece.valid_of_mem_tracesOf hgap hplain, hcells, ?_⟩
  rw [tokensOf, Piece.filterMap_word?_locate 0 hplain, tokensOfTraces]

theorem traced_of_ofFormula : s.Traced tokens formula.toList := by
  obtain ⟨ts, hfills, hvalid, hcells, rfl⟩ := exists_traces_of_ofFormula h
  exact traced_of_traces hfills hvalid hcells

theorem placeholders_of_ofFormula : s.cells.filter (isPlaceholder ·.char) =
    tokens.map fun t => ⟨t.placeholder, t.position⟩ :=
  (traced_of_ofFormula h).placeholders

theorem placeholderCount_of_ofFormula : s.placeholderCount = tokens.length := by
  have := congrArg List.length (placeholders_of_ofFormula h)
  rwa [List.length_map, ← List.countP_eq_length_filter, ← Function.comp_def,
    ← List.countP_map] at this

theorem length_cells_le_of_ofFormula : s.cells.length ≤ formula.toList.length := by
  obtain ⟨ts, hfills, -, hcells, -⟩ := exists_traces_of_ofFormula h
  have := hfills.length_le
  rwa [List.length_map, ← List.length_map Trace.cell, ← hcells] at this

end OfFormula

/-- Nothing of a formula is lost: its skeleton and its tokens go back to it, there is one token for
each placeholder, and the skeleton is no longer than the formula. -/
theorem traced_ofFormula {formula : String} {s : Skeleton} {tokens : List Token}
    (h : ofFormula formula = .ok (s, tokens)) :
    s.Traced tokens formula.toList ∧ s.placeholderCount = tokens.length ∧
      s.cells.length ≤ formula.toList.length := by
  refine ⟨?_, placeholderCount_of_ofFormula h, length_cells_le_of_ofFormula h⟩
  obtain ⟨ts, hfills, hvalid, hcells, rfl⟩ := exists_traces_of_ofFormula h
  exact traced_of_traces hfills hvalid hcells

theorem traced_ofFormula_root :
    let s : Skeleton :=
      ⟨[⟨'■', 0⟩, ⟨'(', 4⟩, ⟨'□', 6⟩, ⟨')', 7⟩, ⟨'*', 8⟩, ⟨'□', 9⟩], 10⟩
    let tokens : List Token :=
      [⟨"sqrt", 0, 0, .special .radical⟩, ⟨"x", 1, 6, .ordinary⟩, ⟨"2", 2, 9, .ordinary⟩]
    s.Traced tokens "sqrt( x)*2".toList ∧ s.placeholderCount = 3 ∧ s.cells.length ≤ 10 :=
  traced_ofFormula (by rfl : ofFormula "sqrt( x)*2" = .ok (_, _))

end Skeleton

end Formulary
