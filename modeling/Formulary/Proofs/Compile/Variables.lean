import Formulary.Proofs.Compile.Faults

/-! # The variables of a formula

Of a table of variables only the entries of the free names of a formula matter: those that are no
literal and no fixed name.  A free name without an entry is reported once the formula has been read,
and of several the leftmost one.
-/

namespace Formulary

/-- Is the name neither a literal nor a fixed name? -/
def Source.Free (name : String) : Prop :=
  Literal.read? name.toList = none ∧ FixedName.find? FixedName.all name = none

namespace Source

theorem ofName?_of_free {name : String} (h : Free name) (table : Bindings) :
    ofName? table name = (table.get? name).map .bound := by
  rw [ofName?, h.1, h.2]

/-- A name that is not free has the same meaning in every table. -/
theorem exists_ofName?_of_not_free {name : String} (h : ¬Free name) :
    ∃ source, ∀ table, ofName? table name = some source := by
  unfold ofName?
  cases hliteral : Literal.read? name.toList with
  | some r => exact ⟨literal r, fun _ => rfl⟩
  | none =>
    cases hfixed : FixedName.find? FixedName.all name with
    | some entry => exact ⟨fixed entry, fun _ => rfl⟩
    | none => exact absurd ⟨hliteral, hfixed⟩ h

theorem ofName?_eq_none_iff {table : Bindings} {name : String} :
    ofName? table name = none ↔ Free name ∧ table.get? name = none := by
  by_cases h : Free name
  · rw [ofName?_of_free h]
    simp [h]
  · obtain ⟨source, hsource⟩ := exists_ofName?_of_not_free h
    simp [hsource, h]

theorem ofName?_congr {table table' : Bindings} {name : String}
    (h : Free name → table.get? name = table'.get? name) :
    ofName? table name = ofName? table' name := by
  by_cases hfree : Free name
  · rw [ofName?_of_free hfree, ofName?_of_free hfree, h hfree]
  · obtain ⟨source, hsource⟩ := exists_ofName?_of_not_free hfree
    rw [hsource, hsource]

end Source

/-! ## Binding -/

/-- Do two tables have the same entries for the free names among the tokens? -/
def Bindings.AgreeOn (tokens : List Token) (table table' : Bindings) : Prop :=
  ∀ t ∈ tokens, Source.Free t.text → table.get? t.text = table'.get? t.text

theorem bind_congr {table table' : Bindings} {tokens : List Token}
    (h : table.AgreeOn tokens table') (options : Options) :
    bind table options tokens = bind table' options tokens := by
  induction tokens with
  | nil => rfl
  | cons t tokens ih =>
    obtain ⟨ht, htokens⟩ := List.forall_mem_cons.1 h
    rw [bind, bind, Source.ofName?_congr ht, ih htokens]

/-- Is it the text of the leftmost token whose name is free and not bound? -/
def IsFirstUnbound (table : Bindings) (tokens : List Token) (name : String) : Prop :=
  ∃ before t after, tokens = before ++ t :: after ∧ t.text = name ∧
    (Source.Free t.text ∧ table.get? t.text = none) ∧
    ∀ u ∈ before, ¬(Source.Free u.text ∧ table.get? u.text = none)

theorem isFirstUnbound_cons {table : Bindings} {t : Token} {tokens : List Token} {name : String} :
    IsFirstUnbound table (t :: tokens) name ↔
      Source.ofName? table t.text = none ∧ t.text = name ∨
        Source.ofName? table t.text ≠ none ∧ IsFirstUnbound table tokens name := by
  rw [ne_eq, Source.ofName?_eq_none_iff]
  constructor
  · rintro ⟨before, u, after, heq, hname, hu, hbefore⟩
    cases before with
    | nil =>
      obtain ⟨rfl, rfl⟩ := List.cons.inj heq
      exact .inl ⟨hu, hname⟩
    | cons v before =>
      obtain ⟨rfl, rfl⟩ := List.cons.inj heq
      obtain ⟨ht, hrest⟩ := List.forall_mem_cons.1 hbefore
      exact .inr ⟨ht, before, u, after, rfl, hname, hu, hrest⟩
  · rintro (⟨ht, hname⟩ | ⟨ht, before, u, after, rfl, hname, hu, hbefore⟩)
    · exact ⟨[], t, tokens, rfl, hname, ht, by simp⟩
    · exact ⟨t :: before, u, after, rfl, hname, hu, List.forall_mem_cons.2 ⟨ht, hbefore⟩⟩

theorem bind_eq_error_iff_isFirstUnbound {table : Bindings} {options : Options}
    {tokens : List Token} {name : String} :
    bind table options tokens = .error (.unknownIdentifier name) ↔
      IsFirstUnbound table tokens name := by
  induction tokens with
  | nil => simp [bind, IsFirstUnbound]
  | cons t tokens ih =>
    rw [isFirstUnbound_cons, bind]
    cases Source.ofName? table t.text with
    | none => simp
    | some source => simp [← ih, bind_eq_error_iff]

/-! ## Compiling -/

/-- Is it anything else than an unknown name? -/
def Error.NamesNothing (err : Error) : Prop :=
  ∀ name, err ≠ .unknownIdentifier name

theorem Error.DefectAt.namesNothing {positions : List Nat} {err : Error}
    (h : DefectAt positions err) : err.NamesNothing := by
  obtain ⟨p, -, d, rfl⟩ := h
  intro name hname
  cases hname

theorem Error.IsFault.namesNothing {err : Error} (h : IsFault err) : err.NamesNothing := by
  obtain ⟨fault, rfl⟩ := h
  intro name hname
  cases hname

theorem Expr.FaultOrDefect.namesNothing {tokens : List Token} {err : Error}
    (h : FaultOrDefect tokens err) : err.NamesNothing :=
  h.elim Error.IsFault.namesNothing Error.DefectAt.namesNothing

theorem compile_eq_unknownIdentifier_iff {formula : String} {table : Bindings} {options : Options}
    {name : String} :
    compile formula table options = .error (.unknownIdentifier name) ↔
      ∃ s tokens e, Skeleton.ofFormula formula = .ok (s, tokens) ∧
        Expr.ofSkeleton s tokens = .ok e ∧ IsFirstUnbound table tokens name := by
  rw [compile_eq, bind_eq_error_iff]
  constructor
  · rintro (h | ⟨⟨s, tokens⟩, hs, h⟩)
    · exact absurd rfl ((Skeleton.failsOnly_ofFormula formula _ h).namesNothing name)
    rcases bind_eq_error_iff.1 h with h | ⟨e, he, h⟩
    · obtain ⟨_, _, _, hd⟩ := Expr.failsOnly_ofSkeleton s tokens _ h
      cases hd
    rcases bind_eq_error_iff.1 h with h | ⟨meanings, -, h⟩
    · exact ⟨s, tokens, e, hs, he, bind_eq_error_iff_isFirstUnbound.1 h⟩
    · have fails := Compiled.failsOnly_ofMeanings s tokens e options meanings _ h
      exact absurd rfl (fails.namesNothing name)
  · rintro ⟨s, tokens, e, hs, he, h⟩
    refine .inr ⟨(s, tokens), hs, ?_⟩
    simp only [he, ok_bind, bind_eq_error_iff_isFirstUnbound.2 h, error_bind]

/-- Only the entries of free names matter, and the leftmost free name without an entry is reported
as soon as the formula has been read. -/
theorem compile_free_names (formula : String) (table : Bindings) (options : Options) :
    (∀ table' : Bindings,
      (∀ s tokens, Skeleton.ofFormula formula = .ok (s, tokens) → table.AgreeOn tokens table') →
        compile formula table options = compile formula table' options) ∧
    ∀ name, compile formula table options = .error (.unknownIdentifier name) ↔
      ∃ s tokens e, Skeleton.ofFormula formula = .ok (s, tokens) ∧
        Expr.ofSkeleton s tokens = .ok e ∧ IsFirstUnbound table tokens name := by
  constructor
  · intro table' h
    rw [compile_eq, compile_eq]
    cases hs : Skeleton.ofFormula formula with
    | error err => rfl
    | ok p =>
      obtain ⟨s, tokens⟩ := p
      simp only [ok_bind, bind_congr (h s tokens hs) options]
  · intro name
    exact compile_eq_unknownIdentifier_iff

/-- An entry named like a literal does not matter, and of two names without an entry the first one
is reported. -/
theorem compile_free_names_sum :
    (∀ b c : Binding, compile "x+1" [("1", b), ("x", c)] .standard =
      compile "x+1" [("x", c)] .standard) ∧
      compile "2*y+z" [] .standard = .error (.unknownIdentifier "y") := by
  constructor
  · intro b c
    refine (compile_free_names "x+1" [("1", b), ("x", c)] .standard).1 [("x", c)] ?_
    intro s tokens h
    have read : Skeleton.ofFormula "x+1" = .ok (⟨[⟨'□', 0⟩, ⟨'+', 1⟩, ⟨'□', 2⟩], 3⟩,
      [⟨"x", 0, 0, .ordinary⟩, ⟨"1", 1, 2, .ordinary⟩]) := by rfl
    obtain ⟨-, rfl⟩ := Prod.mk.inj (Except.ok.inj (read.symm.trans h))
    intro t ht hfree
    simp only [List.mem_cons, List.not_mem_nil, or_false] at ht
    rcases ht with rfl | rfl
    · rfl
    · cases (hfree.1 : Literal.read? ['1'] = none)
  · exact ((compile_free_names "2*y+z" [] .standard).2 "y").2
      ⟨⟨[⟨'□', 0⟩, ⟨'*', 1⟩, ⟨'□', 2⟩, ⟨'+', 3⟩, ⟨'□', 4⟩], 5⟩,
        [⟨"2", 0, 0, .ordinary⟩, ⟨"y", 1, 2, .ordinary⟩, ⟨"z", 2, 4, .ordinary⟩],
        .binary .add (.binary .mul (.operand 0) (.operand 1)) (.operand 2), by rfl, by rfl,
        [⟨"2", 0, 0, .ordinary⟩], ⟨"y", 1, 2, .ordinary⟩,
        [⟨"z", 2, 4, .ordinary⟩], rfl, rfl, ⟨⟨by decide, by decide⟩, rfl⟩, by
          rintro u hu ⟨⟨hliteral, -⟩, -⟩
          rw [List.mem_singleton.1 hu] at hliteral
          cases (hliteral : Literal.read? ['2'] = none)⟩

end Formulary
