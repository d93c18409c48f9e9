import Formulary.Proofs.Skeleton.Lexeme

/-! # Spacing

A formula laid out: its lexemes with blanks in front of each of them and behind the last one.  Every
formula that is accepted is the layout of the lexemes it is cut into.  Blanks that are added change
neither the skeleton nor the tokens, except in front of a number whose exponent has a sign: there
the sign is taken for an operator.
-/

namespace Formulary

/-- Lexemes with blanks around them. -/
inductive Spacing where
  /-- The blanks behind the last lexeme. -/
  | done (blanks : List Char)
  /-- A lexeme with the blanks in front of it, and what follows. -/
  | next (blanks : List Char) (lexeme : Lexeme) (rest : Spacing)
deriving DecidableEq, Repr

/-- Is there a sign in the lexeme, which is a word?  The sign then belongs to an exponent. -/
def Lexeme.Signed : Lexeme → Prop
  | word text => '+' ∈ text ∨ '-' ∈ text
  | symbol _ | gap => False

namespace Spacing

open Piece

def text : Spacing → List Char
  | done blanks => blanks
  | next blanks lexeme rest => blanks ++ (lexeme.text ++ rest.text)

def lexemes : Spacing → List Lexeme
  | done _ => []
  | next _ lexeme rest => lexeme :: rest.lexemes

/-- The words of a text that begins at `i`, with their positions. -/
def words (i : Nat) : Spacing → List Word
  | done _ => []
  | next blanks (.word w) rest =>
    ⟨i + blanks.length, w⟩ :: rest.words (i + blanks.length + w.length)
  | next blanks (.symbol sym) rest => rest.words (i + blanks.length + sym.length)
  | next blanks .gap rest => rest.words (i + blanks.length)

/-- Are the blanks blank? -/
def Blank : Spacing → Prop
  | done blanks => ∀ c ∈ blanks, isBlank c = true
  | next blanks _ rest => (∀ c ∈ blanks, isBlank c = true) ∧ rest.Blank

/-- Do signed words have no blanks in front? -/
def Tight : Spacing → Prop
  | done _ => True
  | next blanks lexeme rest => (lexeme.Signed → blanks = []) ∧ rest.Tight

/-- The same lexemes, with blanks added around them. -/
inductive Widens : Spacing → Spacing → Prop where
  | done {b b' : List Char} : b.Sublist b' → Widens (done b) (done b')
  | next {b b' : List Char} {lexeme : Lexeme} {rest rest' : Spacing} :
    b.Sublist b' → Widens rest rest' → Widens (next b lexeme rest) (next b' lexeme rest')

theorem Widens.lexemes_eq {sp sp' : Spacing} (h : sp.Widens sp') : sp'.lexemes = sp.lexemes := by
  induction h with
  | done _ => rfl
  | next _ _ ih => rw [lexemes, lexemes, ih]

theorem Widens.mem_text {sp sp' : Spacing} (h : sp.Widens sp') (hb : sp'.Blank) {c : Char}
    (hc : c ∈ sp'.text) : isBlank c = true ∨ c ∈ sp.text := by
  induction h with
  | done _ => exact .inl (hb c hc)
  | next _ _ ih =>
    rcases List.mem_append.1 hc with hc | hc
    · exact .inl (hb.1 c hc)
    · rcases List.mem_append.1 hc with hc | hc
      · exact .inr (List.mem_append_right _ (List.mem_append_left _ hc))
      · exact (ih hb.2 hc).imp id fun h => List.mem_append_right _ (List.mem_append_right _ h)

/-! ## Reading -/

/-- Is the run that has been collected complete where the rest begins? -/
def Closes (collected : List Char) : Spacing → Prop
  | done _ => True
  | next blanks (.symbol sym) rest => Piece.Closes (blanks.reverse ++ collected) (sym ++ rest.text)
  | next _ (.word _) _ | next _ .gap _ => False

theorem Closes.stops {collected : List Char} {rest : Spacing} (hb : rest.Blank)
    (h : rest.Closes collected) : Stops collected rest.text := by
  cases rest with
  | done blanks => exact ⟨blanks, [], hb, (List.append_nil _).symm, trivial⟩
  | next blanks lexeme rest =>
    cases lexeme with
    | symbol sym => exact ⟨blanks, _, hb.1, rfl, h⟩
    | word w => exact h.elim
    | gap => exact h.elim

/-- Is the lexeme read as it is, with the blanks in front of it and the rest behind it? -/
def ReadsAt (blanks : List Char) (rest : Spacing) : Lexeme → Prop
  | .symbol sym => sym ∈ symbols ∧ Ends sym rest.text
  | .word w =>
    w ≠ [] ∧ (∀ c ∈ w, isBlank c = false) ∧ Unbroken blanks.reverse w [] ∧
      rest.Closes (w.reverse ++ blanks.reverse)
  | .gap => False

/-- Is every lexeme read as it is? -/
def Reads : Spacing → Prop
  | done _ => True
  | next blanks lexeme rest => ReadsAt blanks rest lexeme ∧ rest.Reads

theorem ReadsAt.text_ne_nil {b : List Char} {rest : Spacing} {l : Lexeme}
    (h : ReadsAt b rest l) : l.text ≠ [] := by
  cases l with
  | symbol sym => exact ne_nil_of_mem_symbols h.1
  | word w => exact h.1
  | gap => exact h.elim

theorem Reads.gap_not_mem {sp : Spacing} (h : sp.Reads) : .gap ∉ sp.lexemes := by
  induction sp with
  | done blanks => exact List.not_mem_nil
  | next blanks lexeme rest ih =>
    refine List.not_mem_cons_of_ne_of_not_mem ?_ (ih h.2)
    rintro rfl
    exact h.1

theorem ReadsAt.lexemesFrom_eq {b : List Char} {rest : Spacing} {l : Lexeme}
    (h : ReadsAt b rest l) (hb : ∀ c ∈ b, isBlank c = true) (hrest : rest.Blank) :
    lexemesFrom [] (b ++ (l.text ++ rest.text)) = l :: lexemesFrom [] rest.text := by
  cases l with
  | symbol sym =>
    obtain ⟨hsym, hends⟩ := h
    rw [Lexeme.text, lexemesFrom_blanks hb (closes_symbol hsym _), lexemesFrom_symbol hsym hends]
  | word w =>
    obtain ⟨hne, hw, hrun, hcloses⟩ := h
    exact lexemesFrom_word hb hne hw (hrun.weaken rest.text) (hcloses.stops hrest)
  | gap => exact h.elim

/-- A text is cut into the lexemes that it is laid out of. -/
theorem lexemesFrom_text {sp : Spacing} (hb : sp.Blank) (h : sp.Reads) :
    lexemesFrom [] sp.text = sp.lexemes := by
  induction sp with
  | done blanks =>
    have : lexemesFrom [] (blanks ++ []) = lexemesFrom [] [] := lexemesFrom_blanks hb trivial
    rwa [List.append_nil] at this
  | next blanks lexeme rest ih =>
    rw [text, h.1.lexemesFrom_eq hb.1 hb.2, ih hb.2 h.2, lexemes]

/-! ## The layout of a formula -/

/-- The words of pieces, the first of which begins at `i`. -/
def wordsOf (i : Nat) (ps : List Piece) : List Word :=
  (locate i ps).filterMap fun (i, p) => p.word? i

theorem wordsOf_cons (i : Nat) (p : Piece) (ps : List Piece) :
    wordsOf i (p :: ps) = (p.word? i).toList ++ wordsOf (i + p.text.length) ps := by
  cases h : p.word? i <;> simp [wordsOf, locate, h]

theorem wordsOf_blanks {b : List Char} (hb : ∀ c ∈ b, isBlank c = true) (i : Nat)
    (ps : List Piece) : wordsOf i (run b :: ps) = wordsOf (i + b.length) ps := by
  have none : ((run b).word? i).toList.map (·.text) = [] := by
    rw [text_word?, lexemes_blanks hb]
    rfl
  rw [wordsOf_cons, List.map_eq_nil_iff.1 none]
  rfl

theorem wordsOf_ofCollected (i : Nat) (collected : List Char) (ps : List Piece) :
    wordsOf i (ofCollected collected ++ ps) = wordsOf i (run collected.reverse :: ps) := by
  cases collected with
  | nil => rfl
  | cons c cs => rfl

/-- Is the text laid out like this, with every lexeme read as it is, and are its words those of the
pieces? -/
structure Lays (sp : Spacing) (text : List Char) (ps : List Piece) : Prop where
  blank : sp.Blank
  text : sp.text = text
  reads : sp.Reads
  words : ∀ i, sp.words i = wordsOf i ps

/-- A run without a gap is read as the word in it. -/
theorem exists_lays_of_run {collected tail : List Char} {ps : List Piece}
    (hrun : Unbroken [] collected.reverse tail)
    (hgap : .gap ∉ Piece.lexemes (run collected.reverse)) (hcloses : Piece.Closes collected tail)
    (htail : ∀ b : List Char, (∀ c ∈ b, isBlank c = true) →
      ∃ sp : Spacing, sp.Lays (b ++ tail) (run b :: ps) ∧
        ∀ collected, Piece.Closes (b.reverse ++ collected) tail → sp.Closes collected) :
    ∃ sp : Spacing, sp.Lays (collected.reverse ++ tail) (ofCollected collected ++ ps) := by
  have words_eq := fun i => wordsOf_ofCollected i collected ps
  rw [← List.reverse_reverse collected] at hcloses
  generalize collected.reverse = r at hrun hgap hcloses words_eq ⊢
  obtain ⟨b, b', hb, hb', hw, hr, hindent⟩ := exists_of_gap_not_mem hgap
  by_cases hne : Run.word r = []
  · rw [hne, List.nil_append] at hr
    have hblank : ∀ c ∈ r, isBlank c = true := by
      rw [hr]
      exact List.forall_mem_append.2 ⟨hb, hb'⟩
    obtain ⟨sp, hlays, -⟩ := htail r hblank
    exact ⟨sp, hlays.blank, hlays.text, hlays.reads, fun i => by rw [hlays.words, words_eq]⟩
  · obtain ⟨sp, hlays, hnext⟩ := htail b' hb'
    have closes : sp.Closes ((Run.word r).reverse ++ b.reverse) := by
      refine hnext _ ?_
      have : b'.reverse ++ ((Run.word r).reverse ++ b.reverse) = r.reverse := by
        conv => rhs; rw [hr]
        simp
      rwa [this]
    refine ⟨next b (.word (Run.word r)) sp, ⟨hb, hlays.blank⟩, ?_, ⟨⟨hne, hw, ?_, closes⟩,
      hlays.reads⟩, fun i => ?_⟩
    · conv => rhs; rw [hr]
      simp [text, Lexeme.text, hlays.text]
    · rw [hr, unbroken_append, unbroken_append, List.append_nil] at hrun
      exact hrun.2.1.of_stops (hlays.text ▸ closes.stops hlays.blank)
    · have here : (run r).word? i = some ⟨i + b.length, Run.word r⟩ := by
        simp [word?, hne, hindent]
      have length : r.length = b.length + ((Run.word r).length + b'.length) := by
        conv => lhs; rw [hr]
        simp
      rw [words, hlays.words, wordsOf_blanks hb', words_eq, wordsOf_cons, here, text_run, length]
      simp only [Nat.add_assoc, Option.toList_some, List.singleton_append]

theorem exists_lays_of_symbol {collected sym rest : List Char} {ps : List Piece}
    (hsym : sym ∈ symbols) (hends : Ends sym rest)
    (hrun : Unbroken [] collected.reverse (sym ++ rest))
    (hgap : .gap ∉ Piece.lexemes (run collected.reverse))
    (hcloses : Piece.Closes collected (sym ++ rest)) (hrest : ∃ sp : Spacing, sp.Lays rest ps) :
    ∃ sp : Spacing,
      sp.Lays (collected.reverse ++ (sym ++ rest)) (ofCollected collected ++ symbol sym :: ps) := by
  obtain ⟨sp, hb, rfl, hreads, hwords⟩ := hrest
  refine exists_lays_of_run hrun hgap hcloses fun b hblank =>
    ⟨next b (.symbol sym) sp, ⟨⟨hblank, hb⟩, rfl, ⟨⟨hsym, hends⟩, hreads⟩, fun i => ?_⟩,
      fun _ h => h⟩
  rw [words, hwords, wordsOf_blanks hblank]
  rfl

theorem exists_lays_of_split {collected cs : List Char} (hrun : Unbroken [] collected.reverse cs)
    (hgap : .gap ∉ (split collected cs).flatMap Piece.lexemes) :
    ∃ sp : Spacing, sp.Lays (collected.reverse ++ cs) (split collected cs) := by
  have parts : ∀ {collected : List Char} {ps : List Piece},
      .gap ∉ (ofCollected collected ++ ps).flatMap Piece.lexemes →
        .gap ∉ Piece.lexemes (run collected.reverse) ∧ .gap ∉ ps.flatMap Piece.lexemes := by
    intro collected ps h
    rwa [List.flatMap_append, List.mem_append, not_or, ← List.reverse_reverse collected,
      flatMap_lexemes_ofCollected] at h
  have tail : ∀ {sym : List Char} {ps : List Piece},
      .gap ∉ (symbol sym :: ps).flatMap Piece.lexemes → .gap ∉ ps.flatMap Piece.lexemes :=
    fun h hmem => h (List.mem_cons_of_mem _ hmem)
  -- the run is complete at the end of the text and at each symbol, and goes on everywhere else
  fun_induction split collected cs with
  | case1 collected =>
    rw [← List.append_nil (ofCollected collected)] at hgap
    obtain ⟨sp, hlays⟩ := exists_lays_of_run hrun (parts hgap).1 trivial fun b hb =>
      ⟨done b, ⟨hb, (List.append_nil b).symm, trivial, fun i => (wordsOf_blanks hb i []).symm⟩,
        fun _ _ => trivial⟩
    rw [List.append_nil (ofCollected collected)] at hlays
    exact ⟨sp, hlays⟩
  | case2 collected cs ih =>
    exact @exists_lays_of_symbol _ ['*', '*'] cs _ (by decide) (by simp [Ends]) hrun (parts hgap).1
      ⟨rfl, rfl⟩ (ih trivial (tail (parts hgap).2))
  | case3 collected cs ih =>
    exact @exists_lays_of_symbol _ ['/', '/'] cs _ (by decide) (by simp [Ends]) hrun (parts hgap).1
      ⟨rfl, rfl⟩ (ih trivial (tail (parts hgap).2))
  | case4 collected c cs star slash hcut ih =>
    rw [Bool.and_eq_true, Bool.not_eq_true'] at hcut
    have ends : Ends [c] cs := by
      rintro (hc | hc) ⟨ds, rfl⟩
      · exact star ds (List.singleton_inj.1 hc) (by rw [hc]; rfl)
      · exact slash ds (List.singleton_inj.1 hc) (by rw [hc]; rfl)
    exact @exists_lays_of_symbol _ [c] cs _ (singleton_mem_symbols hcut.1) ends hrun (parts hgap).1
      hcut (ih trivial (tail (parts hgap).2))
  | case5 collected c cs _ _ hcut ih =>
    simpa using ih (hrun.snoc hcut) hgap

theorem exists_lays {formula : List Char} (h : .gap ∉ lexemesFrom [] formula) :
    ∃ sp : Spacing, sp.Lays formula (Piece.ofFormula formula) :=
  @exists_lays_of_split [] formula trivial h

/-- Every text without a gap is laid out as the lexemes it is cut into. -/
theorem exists_spacing {formula : List Char} (h : .gap ∉ lexemesFrom [] formula) :
    ∃ sp : Spacing, sp.Blank ∧ sp.text = formula ∧ sp.Reads := by
  obtain ⟨sp, hlays⟩ := exists_lays h
  exact ⟨sp, hlays.blank, hlays.text, hlays.reads⟩

/-! ## Blanks that are added -/

/-- A text that is widened and still begins with a character that is not blank began with it. -/
theorem Widens.head?_text {sp sp' : Spacing} (h : sp.Widens sp') (hb : sp'.Blank)
    (hreads : sp.Reads) {c : Char} (hc : isBlank c = false) (hhead : sp'.text.head? = some c) :
    sp.text.head? = some c := by
  cases h with
  | @done b b' _ =>
    have := hb c (List.mem_of_mem_head? hhead)
    rw [hc] at this
    cases this
  | @next b b' lexeme rest rest' hsub hrest =>
    cases b' with
    | cons d ds =>
      cases hhead
      have := hb.1 c List.mem_cons_self
      rw [hc] at this
      cases this
    | nil =>
      obtain rfl := List.sublist_nil.1 hsub
      obtain ⟨d, ds, hd⟩ := List.exists_cons_of_ne_nil hreads.1.text_ne_nil
      simp only [text, hd, List.nil_append, List.cons_append, List.head?_cons] at hhead ⊢
      exact hhead

theorem ends_widens {sp sp' : Spacing} (h : sp.Widens sp') (hb : sp'.Blank) (hreads : sp.Reads)
    {sym : List Char} (hends : Ends sym sp.text) : Ends sym sp'.text := by
  have head : ∀ {c : Char}, isBlank c = false → [c] <+: sp'.text → [c] <+: sp.text := by
    rintro c hc ⟨cs, hcs⟩
    have := h.head?_text hb hreads hc (by rw [← hcs]; rfl)
    obtain ⟨ds, hds⟩ := List.head?_eq_some_iff.1 this
    exact ⟨ds, hds.symm⟩
  rintro (rfl | rfl) hstart
  · exact hends (.inl rfl) (head rfl hstart)
  · exact hends (.inr rfl) (head rfl hstart)

theorem eq_nil_of_blank {b : List Char} (hb : ∀ c ∈ b, isBlank c = true)
    (h : ∀ c ∈ b, isBlank c = false) : b = [] := by
  refine List.eq_nil_iff_forall_not_mem.2 fun c hc => ?_
  have := hb c hc
  rw [h c hc] at this
  cases this

/-- A sign that ends a run still ends it when blanks are added: it belongs to an exponent only if
no blank stands before or behind it, and then none did before. -/
theorem Closes.widens {sp sp' : Spacing} (h : sp.Widens sp') (hb : sp'.Blank) (hreads : sp.Reads)
    {collected collected' : List Char}
    (heq : (∀ c ∈ collected', isBlank c = false) → collected = collected')
    (hcloses : sp.Closes collected) : sp'.Closes collected' := by
  cases h with
  | done _ => trivial
  | @next b b' lexeme rest rest' hblanks hrest =>
    cases lexeme with
    | word w => exact hcloses
    | gap => exact hcloses
    | symbol sym =>
      obtain ⟨s, ss, rfl⟩ := List.exists_cons_of_ne_nil hreads.1.text_ne_nil
      obtain ⟨hs, hcut⟩ := hcloses
      refine ⟨hs, Bool.eq_false_iff.2 fun hsign => ?_⟩
      obtain ⟨sign, ⟨d, hd, hdigit⟩, await⟩ := isExponentSign_iff.1 hsign
      have alone : ss = [] := by
        have hsym := hreads.1.1
        simp only [symbols, List.mem_cons, List.not_mem_nil, or_false] at hsym
        rcases sign with rfl | rfl <;> simpa using hsym
      subst alone
      have digit : rest.text.head? = some d :=
        hrest.head?_text hb.2 hreads.2 (isBlank_of_isDigit hdigit) hd
      have bare := isBlank_of_awaitsExponent await
      obtain rfl : b' = [] := eq_nil_of_blank hb.1 fun c hc =>
        bare c (List.mem_append_left _ (List.mem_reverse.2 hc))
      obtain rfl := List.sublist_nil.1 hblanks
      obtain rfl := heq fun c hc => bare c (List.mem_append_right _ hc)
      exact Bool.eq_false_iff.1 hcut (isExponentSign_iff.2 ⟨sign, ⟨d, digit, hdigit⟩, await⟩)

/-- A lexeme is read as it is when blanks are added, if none are put in front of the word of a
signed number. -/
theorem ReadsAt.widens {b b' : List Char} {rest rest' : Spacing} {l : Lexeme}
    (hb : ∀ c ∈ b', isBlank c = true) (hsub : b.Sublist b') (hrest : rest.Widens rest')
    (hblank : rest'.Blank) (hreads : rest.Reads) (htight : l.Signed → b' = [])
    (h : ReadsAt b rest l) : ReadsAt b' rest' l := by
  cases l with
  | symbol sym => exact ⟨h.1, ends_widens hrest hblank hreads h.2⟩
  | gap => exact h
  | word w =>
    obtain ⟨hne, hw, hrun, hcloses⟩ := h
    refine ⟨hne, hw, ?_, hcloses.widens hrest hblank hreads fun hall => ?_⟩
    · by_cases hsigned : (Lexeme.word w).Signed
      · obtain rfl := htight hsigned
        rwa [List.sublist_nil.1 hsub] at hrun
      · refine unbroken_of_plain (fun c hc => Bool.eq_false_iff.2 fun hsym => hsigned ?_) _ _
        rcases hrun.sign_of_mem hc hsym with rfl | rfl
        · exact .inl hc
        · exact .inr hc
    · obtain rfl : b' = [] := eq_nil_of_blank hb fun c hc =>
        hall c (List.mem_append_right _ (List.mem_reverse.2 hc))
      rw [List.sublist_nil.1 hsub]

theorem Reads.widens {sp sp' : Spacing} (h : sp.Widens sp') (hb : sp'.Blank) (htight : sp'.Tight)
    (hreads : sp.Reads) : sp'.Reads := by
  induction h with
  | done _ => trivial
  | next hsub hrest ih =>
    exact ⟨hreads.1.widens hb.1 hsub hrest hb.2 hreads.2 htight.1, ih hb.2 htight.2 hreads.2⟩

/-- With blanks in front of a number its sign cuts, so that another word is read. -/
theorem lexemesFrom_signed {b b' w : List Char} (hb : ∀ c ∈ b, isBlank c = true)
    (hrun : Unbroken b.reverse w []) (hw : ∀ c ∈ w, isBlank c = false)
    (hb' : ∀ c ∈ b', isBlank c = true) (hne : b' ≠ []) (hsigned : (Lexeme.word w).Signed)
    (rest : List Char) :
    ∃ w' ls, w' ≠ w ∧ lexemesFrom [] (b' ++ (w ++ rest)) = .word w' :: ls := by
  have cut : (w.find? isSymbolChar).isSome = true := by
    rw [List.find?_isSome]
    rcases hsigned with h | h
    · exact ⟨'+', h, rfl⟩
    · exact ⟨'-', h, rfl⟩
  obtain ⟨c, hfind⟩ := Option.isSome_iff_exists.1 cut
  obtain ⟨hc, w', w₂, rfl, hplain⟩ := List.find?_eq_some_iff_append.1 hfind
  have hne' : w' ≠ [] := by
    rintro rfl
    have await := (isExponentSign_iff.1 (hrun.1 hc)).2.2
    have := awaitsExponent_blanks hb (rfl : awaitsExponent [] = false)
    rw [List.append_nil, await] at this
    cases this
  have closes : Piece.Closes (w'.reverse ++ b'.reverse) (c :: (w₂ ++ rest)) := by
    refine ⟨hc, Bool.eq_false_iff.2 fun hsign => hne (eq_nil_of_blank hb' fun d hd => ?_)⟩
    exact isBlank_of_awaitsExponent (isExponentSign_iff.1 hsign).2.2 d
      (List.mem_append_right _ (List.mem_reverse.2 hd))
  refine ⟨w', lexemesFrom [] (c :: (w₂ ++ rest)), by simp, ?_⟩
  rw [List.append_assoc, List.cons_append]
  exact lexemesFrom_word hb' hne' (fun d hd => hw d (List.mem_append_left _ hd))
    (unbroken_of_plain (by simpa using hplain) _ _) closes.stops

/-- Where the words are still the same, no blanks were put in front of a signed one. -/
theorem tight_of_words {sp sp' : Spacing} (h : sp.Widens sp') (hb : sp'.Blank) (hreads : sp.Reads)
    (hwords : (lexemesFrom [] sp'.text).filterMap Lexeme.word? =
      sp.lexemes.filterMap Lexeme.word?) : sp'.Tight := by
  induction h with
  | done _ => trivial
  | @next b b' lexeme rest rest' hsub hrest ih =>
    by_cases htight : lexeme.Signed → b' = []
    · refine ⟨htight, ih hb.2 hreads.2 ?_⟩
      have item := hreads.1.widens hb.1 hsub hrest hb.2 hreads.2 htight
      rw [text, item.lexemesFrom_eq hb.1 hb.2, lexemes] at hwords
      cases lexeme with
      | symbol sym => exact hwords
      | word w => exact (List.cons.inj hwords).2
      | gap => exact hreads.1.elim
    · obtain ⟨hsigned, hne⟩ := Classical.not_imp.1 htight
      cases lexeme with
      | symbol sym => exact hsigned.elim
      | gap => exact hsigned.elim
      | word w =>
        obtain ⟨-, hw, hrun, -⟩ := hreads.1
        obtain ⟨w', ls, hother, hlexemes⟩ := lexemesFrom_signed
          (fun c hc => hb.1 c (hsub.subset hc)) hrun hw hb.1 hne hsigned rest'.text
        rw [text, Lexeme.text, hlexemes] at hwords
        exact absurd (List.cons.inj hwords).1 hother

end Spacing

/-! ## Formulas -/

namespace Skeleton

/-- The kind of a token is that of its text. -/
theorem map_kind_of_ofFormula {formula : String} {s : Skeleton} {tokens : List Token}
    (h : ofFormula formula = .ok (s, tokens)) :
    (tokens.map fun t => (t.text, t.kind)) =
      (tokens.map (·.text)).map fun text => (text, TokenKind.ofName text) := by
  rw [List.map_map]
  refine List.map_congr_left fun t ht => ?_
  rw [kind_of_ofFormula h ht]
  rfl

/-- The lexemes of an accepted formula, its tokens and the operators, brackets and commas between
them, may be laid out with more blanks.  The formula is then still accepted, with the same skeleton
and tokens, exactly if no blanks are put in front of a number whose exponent has a sign. -/
theorem ofFormula_widens {formula : String} {s : Skeleton} {tokens : List Token}
    (h : ofFormula formula = .ok (s, tokens)) :
    ∃ sp : Spacing, sp.Blank ∧ sp.text = formula.toList ∧
      sp.lexemes = (Piece.ofFormula formula.toList).flatMap Piece.lexemes ∧
      ∀ sp' : Spacing, sp.Widens sp' → sp'.Blank →
        (sp'.Tight ↔
          ∃ s' tokens', ofFormula (String.ofList sp'.text) = .ok (s', tokens') ∧
            s'.chars = s.chars ∧
            tokens'.map (fun t => (t.text, t.kind)) = tokens.map fun t => (t.text, t.kind)) := by
  obtain ⟨hplain, hgap, hne, -⟩ := ofFormula_eq_ok_iff.1 h
  obtain ⟨hchars, htexts⟩ := lexemes_of_ofFormula h
  obtain ⟨sp, hb, htext, hreads⟩ := Spacing.exists_spacing hgap
  have lexemes := Spacing.lexemesFrom_text hb hreads
  rw [← htext] at hplain hgap hchars htexts
  rw [lexemes] at hgap hchars htexts
  refine ⟨sp, hb, htext, by rw [← lexemes, htext]; rfl, fun sp' hwiden hb' => ?_⟩
  constructor
  · intro htight
    have plain : ∀ c ∈ sp'.text, isPlaceholder c = false := by
      intro c hc
      rcases hwiden.mem_text hb' hc with hblank | hmem
      · exact Piece.isPlaceholder_of_isBlank hblank
      · exact hplain c hmem
    have same : Piece.lexemesFrom [] sp'.text = sp.lexemes := by
      rw [Spacing.lexemesFrom_text hb' (hreads.widens hwiden hb' htight), hwiden.lexemes_eq]
    obtain ⟨s', tokens', hok, hchars', htexts'⟩ := ofFormula_of_lexemes plain same hgap (by
      rw [← hchars]
      exact fun hnil => hne (List.map_eq_nil_iff.1 hnil))
    refine ⟨s', tokens', hok, hchars'.trans hchars.symm, ?_⟩
    rw [map_kind_of_ofFormula hok, map_kind_of_ofFormula h, htexts', htexts]
  · rintro ⟨s', tokens', hok, -, htokens⟩
    refine Spacing.tight_of_words hwiden hb' hreads ?_
    have texts : tokens'.map (·.text) = tokens.map (·.text) := by
      simpa [Function.comp_def] using congrArg (List.map Prod.fst) htokens
    rw [htexts, (lexemes_of_ofFormula hok).2, String.toList_ofList] at texts
    exact List.map_inj_right (fun _ _ => String.ofList_injective) |>.1 texts

/-- The conclusion for the product of two numbers. -/
theorem ofFormula_widens_product :
    ∃ sp : Spacing, sp.Blank ∧ sp.text = "2*1e-3".toList ∧
      sp.lexemes = (Piece.ofFormula "2*1e-3".toList).flatMap Piece.lexemes ∧
      ∀ sp' : Spacing, sp.Widens sp' → sp'.Blank →
        (sp'.Tight ↔
          ∃ s' tokens', ofFormula (String.ofList sp'.text) = .ok (s', tokens') ∧
            s'.chars = ['□', '*', '□'] ∧
            tokens'.map (fun t => (t.text, t.kind)) =
              [("2", .ordinary), ("1e-3", .ordinary)]) :=
  ofFormula_widens (by rfl : ofFormula "2*1e-3" = .ok
    (⟨[⟨'□', 0⟩, ⟨'*', 1⟩, ⟨'□', 2⟩], 6⟩,
      [⟨"2", 0, 0, .ordinary⟩, ⟨"1e-3", 1, 2, .ordinary⟩]))

/-- One blank in front of `1e-3` makes an operator of its sign. -/
theorem ofFormula_blank_before_signed :
    let sp (b : List Char) : Spacing := .next [] (.word ['2']) (.next [] (.symbol ['*'])
      (.next b (.word ['1', 'e', '-', '3']) (.done [])))
    (sp []).Blank ∧ (sp [' ']).Blank ∧ (sp []).Widens (sp [' ']) ∧
      (∃ s tokens, ofFormula (String.ofList (sp []).text) = .ok (s, tokens) ∧
        s.text = "□*□" ∧ tokens.map (·.text) = ["2", "1e-3"]) ∧
      ∃ s tokens, ofFormula (String.ofList (sp [' ']).text) = .ok (s, tokens) ∧
        s.text = "□*□-□" ∧ tokens.map (·.text) = ["2", "1e", "3"] := by
  refine ⟨by simp [Spacing.Blank], by simp [Spacing.Blank]; rfl, ?_, ?_, ?_⟩
  · exact .next (.refl _) (.next (.refl _) (.next (List.nil_sublist _) (.done (.refl _))))
  · exact ⟨_, _, rfl, rfl, rfl⟩
  · exact ⟨_, _, rfl, rfl, rfl⟩

end Skeleton

end Formulary
