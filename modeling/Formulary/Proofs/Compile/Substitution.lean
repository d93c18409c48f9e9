import Formulary.Proofs.Compile
import Formulary.Proofs.Compile.Variables
import Formulary.Proofs.Expr.Inline

/-! # Named intermediate results

Giving a name to the value of a formula does not change what is computed: another formula in which
the name is used has the value that it has with the first formula, in brackets, in the place of the
name.
-/

namespace Formulary

namespace Bindings

theorem lookup_filter (table : Bindings) (name other : String) :
    (table.filter fun entry => entry.1 != name).lookup other =
      if other = name then none else table.lookup other := by
  induction table with
  | nil => simp
  | cons entry table ih =>
    by_cases hname : entry.1 = name
    · rw [List.filter_cons_of_neg (by simpa using hname), ih]
      split
      · rfl
      · next hother =>
        rw [List.lookup_cons, beq_false_of_ne fun h => hother (h.trans hname)]
    · rw [List.filter_cons_of_pos (by simpa using hname), List.lookup_cons, ih, List.lookup_cons]
      cases hother : other == entry.1 with
      | true =>
        have : other ≠ name := fun h => hname ((beq_iff_eq.1 hother).symm.trans h)
        simp [this]
      | false => rfl

/-- The new entry hides those of the same name, and no others. -/
theorem get?_insert (table : Bindings) (name other : String) (b : Binding) :
    (table.insert name b).get? other = if other = name then some b else table.get? other := by
  rw [get?, insert, List.lookup_append, lookup_filter]
  by_cases h : other = name
  · simp [h]
  · simp [h, get?, List.lookup_cons, beq_false_of_ne h]

end Bindings

namespace Source

/-- What is computed for a token. -/
def term : Source → Term
  | literal r => .number (.exact r)
  | fixed entry => entry.term
  | bound b => .number (.real b.value)

theorem term_meaning (options : Options) (name : String) (source : Source) :
    (source.meaning options name).term = source.term := by
  cases source <;> rfl

/-- What is computed for a name. -/
def term? (table : Bindings) (name : String) : Option Term :=
  (ofName? table name).map term

theorem ofName?_insert_self {name : String} (h : Free name) (table : Bindings) (b : Binding) :
    ofName? (table.insert name b) name = some (.bound b) := by
  rw [ofName?_of_free h, Bindings.get?_insert, if_pos rfl, Option.map_some]

theorem ofName?_insert_of_ne (table : Bindings) {name other : String} (h : other ≠ name)
    (b : Binding) : ofName? (table.insert name b) other = ofName? table other :=
  ofName?_congr fun _ => by rw [Bindings.get?_insert, if_neg h]

end Source

/-! ## Binding -/

section Bind

variable {table : Bindings} {options : Options} {tokens : List Token}

theorem exists_bind_iff : (∃ meanings, bind table options tokens = .ok meanings) ↔
    ∀ name ∈ tokens.map (·.text), ∃ source, Source.ofName? table name = some source := by
  induction tokens with
  | nil => simp [bind]
  | cons t tokens ih =>
    rw [List.map_cons, List.forall_mem_cons, ← ih, bind]
    cases Source.ofName? table t.text with
    | none => simp
    | some source => simp [bind_eq_ok_iff]

/-- The terms are those of the names of the tokens. -/
theorem getElem?_term_of_bind {meanings : List Meaning}
    (h : bind table options tokens = .ok meanings) (i : Nat) :
    (meanings.map (·.term))[i]? = (tokens.map (·.text))[i]?.bind (Source.term? table) := by
  induction tokens generalizing meanings i with
  | nil =>
    cases h
    rfl
  | cons t tokens ih =>
    rw [bind] at h
    split at h
    · cases h
    · next source hsource =>
      obtain ⟨rest, hrest, h⟩ := bind_eq_ok_iff.1 h
      cases h
      cases i with
      | zero => simp [Source.term?, hsource, Source.term_meaning]
      | succ i => simpa using ih hrest i

end Bind

/-! ## Evaluation -/

namespace Expr

theorem alike_operandValue {tokens tokens' : List Token} {terms terms' : List Term} {i j : Nat}
    (h : terms'[j]? = terms[i]?) :
    Alike (fun _ _ => True) Eq (operandValue tokens' terms' j) (operandValue tokens terms i) := by
  rw [operandValue, operandValue, h]
  split
  · exact .ok rfl
  · exact .error trivial
  · exact .error trivial

end Expr

namespace Skeleton

section Splice

variable {formula inner name : String} {s sᵢ s' : Skeleton} {tokens tokensᵢ tokens' : List Token}
  {g : Expr} {table : Bindings} {options : Options} {b : Binding}
  {meanings meaningsᵢ meanings' : List Meaning}

variable (h : ofFormula formula = .ok (s, tokens)) (hᵢ : ofFormula inner = .ok (sᵢ, tokensᵢ))
  (h' : ofFormula (splice formula tokens name inner) = .ok (s', tokens'))

include h hᵢ h'

/-- What is put in for a token has the terms of its names, from its offset on. -/
theorem getElem?_term_splice (hm' : bind table options tokens' = .ok meanings') {i : Nat}
    {n : String} (hn : (tokens.map (·.text))[i]? = some n) {j : Nat}
    (hj : j < (if n = name then tokensᵢ.map (·.text) else [n]).length) :
    (meanings'.map (·.term))[j + offset name (tokensᵢ.map (·.text)) (tokens.map (·.text)) i]? =
      (if n = name then tokensᵢ.map (·.text) else [n])[j]?.bind (Source.term? table) := by
  rw [getElem?_term_of_bind hm', names_splice h hᵢ h', getElem?_spliceNames hn hj]

/-- A token of another name keeps its term. -/
theorem getElem?_term_of_ne (hm' : bind table options tokens' = .ok meanings')
    (hm : bind (table.insert name b) options tokens = .ok meanings) {i : Nat} {n : String}
    (hn : (tokens.map (·.text))[i]? = some n) (hname : n ≠ name) :
    (meanings'.map (·.term))[offset name (tokensᵢ.map (·.text)) (tokens.map (·.text)) i]? =
      (meanings.map (·.term))[i]? := by
  have new := getElem?_term_splice h hᵢ h' hm' hn (j := 0) (by simp [hname])
  rw [Nat.zero_add, if_neg hname] at new
  rw [new, getElem?_term_of_bind hm, hn, Option.bind_some, Source.term?,
    Source.ofName?_insert_of_ne _ hname]
  rfl

variable (hmᵢ : bind table options tokensᵢ = .ok meaningsᵢ)

include hmᵢ

/-- The inner formula has its value wherever it is put in. -/
theorem alike_evaluate_shift (hg : Expr.ofSkeleton sᵢ tokensᵢ = .ok g)
    (hm' : bind table options tokens' = .ok meanings') {i : Nat}
    (hn : (tokens.map (·.text))[i]? = some name) :
    Alike (fun _ _ => True) Eq
      ((g.shift (offset name (tokensᵢ.map (·.text)) (tokens.map (·.text)) i)).evaluate tokens'
        (meanings'.map (·.term)))
      (g.evaluate tokensᵢ (meaningsᵢ.map (·.term))) := by
  have terms {j : Nat} (hj : j < tokensᵢ.length) : (meanings'.map (·.term))[j +
      offset name (tokensᵢ.map (·.text)) (tokens.map (·.text)) i]? =
        (meaningsᵢ.map (·.term))[j]? := by
    have := getElem?_term_splice h hᵢ h' hm' hn (j := j) (by simpa using hj)
    rw [this, if_pos rfl, getElem?_term_of_bind hmᵢ]
  refine Expr.alike_evaluate_substitute (fun j hj => ?_) fun f hf => ?_
  · rw [Expr.tokenOrder_of_ofSkeleton hg, List.mem_range] at hj
    exact Expr.alike_operandValue (terms hj)
  · obtain ⟨t, ht, -⟩ :=
      called_of_mem_callees hᵢ (Expr.derives_of_ofSkeleton hg).2.2.glyphs hf
    exact terms (List.getElem?_eq_some_iff.1 ht).1

variable (hfree : Source.Free name)

include hfree

/-- The names of both formulas have meanings, or neither's. -/
theorem alike_bind_splice :
    Alike (fun _ _ => True) (fun _ _ => True) (bind table options tokens')
      (bind (table.insert name b) options tokens) := by
  have sources' := @exists_bind_iff table options tokens'
  have sources := @exists_bind_iff (table.insert name b) options tokens
  rw [names_splice h hᵢ h'] at sources'
  refine .of_ok (fun ms' hms' => sources.2 fun n hn => ?_) fun ms hms => ?_
  · by_cases hname : n = name
    · rw [hname, Source.ofName?_insert_self hfree]
      exact ⟨_, rfl⟩
    · rw [Source.ofName?_insert_of_ne _ hname]
      exact sources'.1 ⟨ms', hms'⟩ n (List.mem_flatMap.2 ⟨n, hn, by simp [hname]⟩)
  · obtain ⟨ms', hms'⟩ := sources'.2 fun n hn => by
      obtain ⟨m, hm, hn⟩ := List.mem_flatMap.1 hn
      split at hn
      · exact exists_bind_iff.1 ⟨meaningsᵢ, hmᵢ⟩ n hn
      · next hname =>
        obtain rfl := List.mem_singleton.1 hn
        have := sources.1 ⟨ms, hms⟩ n hm
        rwa [Source.ofName?_insert_of_ne _ hname] at this
    exact ⟨ms', hms', trivial⟩

/-- With the inner formula in the place of the name the value is the same. -/
theorem alike_evaluate_inlined (hcall : ∀ t ∈ tokens, t.text = name → ¬s.Called t)
    (hg : Expr.ofSkeleton sᵢ tokensᵢ = .ok g)
    (hvalue : g.evaluate tokensᵢ (meaningsᵢ.map (·.term)) = .ok (.real b.value))
    (hm' : bind table options tokens' = .ok meanings')
    (hm : bind (table.insert name b) options tokens = .ok meanings) {e : Expr}
    (he : Expr.ofSkeleton s tokens = .ok e) :
    let names := tokens.map (·.text)
    let inner := tokensᵢ.map (·.text)
    Alike (fun _ _ => True) Eq
      ((e.substitute (Expr.inlined name inner names g) (offset name inner names)).evaluate tokens'
        (meanings'.map (·.term)))
      (e.evaluate tokens (meanings.map (·.term))) := by
  intro names inner
  have glyphs := (Expr.derives_of_ofSkeleton he).2.2.glyphs
  refine Expr.alike_evaluate_substitute (fun i hi => ?_) fun f hf => ?_
  · rw [Expr.tokenOrder_of_ofSkeleton he, List.mem_range] at hi
    obtain ⟨n, hn⟩ : ∃ n, names[i]? = some n :=
      Option.isSome_iff_exists.1 (by simpa [names] using hi)
    by_cases hname : n = name
    · subst hname
      have operand : Expr.operandValue tokens (meanings.map (·.term)) i = .ok (.real b.value) := by
        rw [Expr.operandValue, getElem?_term_of_bind hm, hn, Option.bind_some, Source.term?,
          Source.ofName?_insert_self hfree]
        rfl
      rw [Expr.inlined_of_eq hn, Expr.evaluate, operand, ← hvalue]
      exact alike_evaluate_shift h hᵢ h' hmᵢ hg hm' hn
    · rw [Expr.inlined_of_ne fun h => hname (Option.some.inj (hn.symm.trans h))]
      exact Expr.alike_operandValue (getElem?_term_of_ne h hᵢ h' hm' hm hn hname)
  · obtain ⟨t, ht, hcalled⟩ := called_of_mem_callees h glyphs hf
    have hn : names[f]? = some t.text := by rw [List.getElem?_map, ht, Option.map_some]
    exact getElem?_term_of_ne h hᵢ h' hm' hm hn fun hname =>
      hcall t (List.mem_of_getElem? ht) hname hcalled

end Splice

end Skeleton

/-! ## Compiling -/

/-- A name for the value of a formula means the same as the formula, in brackets, in its place. -/
theorem compile_splice {formula inner name : String} {table : Bindings} {b : Binding}
    {s : Skeleton} {tokens : List Token} {c : Compiled}
    (hread : Skeleton.ofFormula formula = .ok (s, tokens))
    (hinner : compile inner table .standard = .ok c) (hvalue : c.value = .real b.value)
    (hfree : Source.Free name) (hcall : ∀ t ∈ tokens, t.text = name → ¬s.Called t)
    (hlimits : ∀ s' tokens',
      Skeleton.ofFormula (Skeleton.splice formula tokens name inner) = .ok (s', tokens') →
        s'.WithinLimits) :
    Alike (fun _ _ => True) (fun c' c => c'.value = c.value ∧ c'.result = c.result)
      (compile (Skeleton.splice formula tokens name inner) table .standard)
      (compile formula (table.insert name b) .standard) := by
  obtain ⟨sᵢ, tokensᵢ, g, meaningsᵢ, hᵢ, hg, hmᵢ, hgvalue⟩ := exists_of_compile hinner
  rw [hvalue] at hgvalue
  obtain ⟨s', tokens', h', -⟩ := Skeleton.ofFormula_splice hread hᵢ name
  have clear (e : Expr) : e.Clear .standard := .inl (forall_not_isPlaceholder rfl)
  rw [compile_eq, compile_eq, h', hread, ok_bind, ok_bind]
  refine (Skeleton.alike_ofSkeleton_splice hread hᵢ h' hcall hg (hlimits s' tokens' h')).bind
    fun e' e he' he heq => ?_
  refine (Skeleton.alike_bind_splice hread hᵢ h' hmᵢ hfree).bind
    fun meanings' meanings hm' hm _ => ?_
  rw [Compiled.ofMeanings_eq_of_clear (clear e') (Expr.tokenOrder_of_ofSkeleton he')
      (length_of_bind_eq_ok hm'),
    Compiled.ofMeanings_eq_of_clear (clear e) (Expr.tokenOrder_of_ofSkeleton he)
      (length_of_bind_eq_ok hm), heq]
  refine (Skeleton.alike_evaluate_inlined hread hᵢ h' hmᵢ hfree hcall hg hgvalue hm' hm he).bind
    fun value' value _ _ same => ?_
  rw [same, Compiled.ofValue, Compiled.ofValue]
  split
  · exact .ok ⟨rfl, rfl⟩
  · exact .error trivial

/-- In `2*x` the name may stand for `a+1`, if its value is that of `a+1`. -/
theorem compile_splice_product :
    Alike (fun _ _ => True) (fun c' c => c'.value = c.value ∧ c'.result = c.result)
        (compile "2*(a+1)" [("a", ⟨0x3ff8000000000000, "a", "m"⟩)] .standard)
        (compile "2*x"
          [("a", ⟨0x3ff8000000000000, "a", "m"⟩), ("x", ⟨0x4004000000000000, "x_0", "m"⟩)]
          .standard) ∧
      (compile "2*(a+1)" [("a", ⟨0x3ff8000000000000, "a", "m"⟩)] .standard).toOption.map (·.value) =
        some (.real (.ofBits 0x4014000000000000)) := by
  refine ⟨?_, by decide +kernel⟩
  have read : Skeleton.ofFormula "2*x" = .ok (⟨[⟨'□', 0⟩, ⟨'*', 1⟩, ⟨'□', 2⟩], 3⟩,
      [⟨"2", 0, 0, .ordinary⟩, ⟨"x", 1, 2, .ordinary⟩]) := by rfl
  have value : (compile "a+1" [("a", ⟨0x3ff8000000000000, "a", "m"⟩)] .standard).toOption.map
      (·.value) = some (.real (.ofBits 0x4004000000000000)) := by decide +kernel
  obtain ⟨c, hc, hvalue⟩ : ∃ c, compile "a+1" [("a", ⟨0x3ff8000000000000, "a", "m"⟩)] .standard =
      .ok c ∧ c.value = .real (.ofBits 0x4004000000000000) := by
    cases hc : compile "a+1" [("a", ⟨0x3ff8000000000000, "a", "m"⟩)] .standard with
    | error err => rw [hc] at value; cases value
    | ok c => exact ⟨c, rfl, by rw [hc] at value; exact Option.some.inj value⟩
  refine @compile_splice "2*x" "a+1" "x" _ ⟨0x4004000000000000, "x_0", "m"⟩ _ _ c read hc hvalue
    ⟨by decide, by decide⟩ ?_ ?_
  · rintro t ht hname ⟨c, q, hsub⟩
    have := hsub.subset (List.mem_cons_of_mem _ List.mem_cons_self)
    simp at this
  · intro s' tokens' h'
    have short := Skeleton.length_cells_le_of_ofFormula h'
    exact Skeleton.withinLimits_of_length_le (Nat.le_trans short (by decide))

end Formulary
