import Formulary.Proofs.Compile.Substitution
import Formulary.Proofs.Skeleton.Rename

/-! # Renamed variables

The name of a variable does not matter.  If another free name is written for it in the formula, and
the table has its entry under the other name, then what is computed and drawn is the same.
-/

namespace Formulary

namespace Bindings

/-- The table in which `name` has the given entry, or none. -/
def set (table : Bindings) (name : String) : Option Binding → Bindings
  | some b => table.insert name b
  | none => table.filter fun entry => entry.1 != name

theorem get?_set (table : Bindings) (name other : String) (b? : Option Binding) :
    (table.set name b?).get? other = if other = name then b? else table.get? other := by
  cases b? with
  | some b => exact get?_insert table name other b
  | none => exact lookup_filter table name other

end Bindings

/-! ## Meanings -/

section Meanings

variable {table : Bindings} {name new : String}

/-- A renamed variable means what it meant, if its entry is found under the new name. -/
theorem Source.map_meaning_renamed (hfree : Free name) (hnew : Free new) {other : String}
    (hfresh : other ≠ new) (options : Options) :
    (ofName? (table.set new (table.get? name)) (renamed name new other)).map
        (meaning options (renamed name new other)) =
      (ofName? table other).map (meaning options other) := by
  by_cases hname : other = name
  · subst hname
    rw [renamed, if_pos rfl, ofName?_of_free hnew, ofName?_of_free hfree, Bindings.get?_set,
      if_pos rfl, Option.map_map, Option.map_map]
    rfl
  · rw [renamed, if_neg hname]
    refine congrArg _ (ofName?_congr fun _ => ?_)
    rw [Bindings.get?_set, if_neg hfresh]

theorem alike_bind_rename (hfree : Source.Free name) (hnew : Source.Free new)
    {tokens tokens' : List Token} (hfresh : ∀ t ∈ tokens, t.text ≠ new)
    (htexts : tokens'.map (·.text) = (tokens.map (·.text)).map (renamed name new))
    (options : Options) :
    Alike (fun _ _ => True) Eq (bind (table.set new (table.get? name)) options tokens')
      (bind table options tokens) := by
  induction tokens generalizing tokens' with
  | nil =>
    obtain rfl := List.map_eq_nil_iff.1 htexts
    exact .ok rfl
  | cons t tokens ih =>
    obtain ⟨t', tokens', rfl, ht', htexts'⟩ := List.map_eq_cons_iff.1 htexts
    obtain ⟨ht, hrest⟩ := List.forall_mem_cons.1 hfresh
    have meaning := @Source.map_meaning_renamed table name new hfree hnew t.text ht options
    rw [← ht'] at meaning
    rw [bind, bind]
    cases hs : Source.ofName? table t.text with
    | none =>
      rw [hs, Option.map_none, Option.map_eq_none_iff] at meaning
      rw [meaning]
      exact .error trivial
    | some source =>
      rw [hs, Option.map_some, Option.map_eq_some_iff] at meaning
      obtain ⟨source', hs', same⟩ := meaning
      rw [hs']
      refine (ih hrest htexts').bind fun ms' ms _ _ h => .ok ?_
      rw [same, h]

end Meanings

/-! ## Compiling -/

theorem TokenKind.ofName_of_not_fixed {name : String}
    (h : FixedName.find? FixedName.all name = none) : ofName name = ordinary := by
  rw [ofName, CallStyle.ofName, if_neg, if_neg]
  · rintro rfl
    cases h
  · rintro rfl
    cases h

/-- Of the tokens only their texts matter to how an evaluation fails. -/
theorem Expr.alike_evaluate (tokens tokens' : List Token) (terms : List Term) (e : Expr) :
    Alike (fun _ _ => True) Eq (e.evaluate tokens' terms) (e.evaluate tokens terms) := by
  have := @alike_evaluate_substitute operand (fun f => f) tokens tokens' terms terms e
    (fun _ _ => alike_operandValue rfl) fun _ _ => rfl
  rwa [substitute_operand] at this

namespace Compiled

/-- A compiled formula without the texts of its tokens. -/
def withoutTexts (c : Compiled) : Compiled :=
  { c with tokenTexts := "" }

theorem alike_ofMeanings_of_kinds {s s' : Skeleton} {tokens tokens' : List Token}
    (hchars : s'.chars = s.chars) (hkinds : tokens'.map Token.kind = tokens.map Token.kind)
    (e : Expr) (options : Options) (meanings : List Meaning) :
    Alike (fun _ _ => True) (fun c' c => c'.withoutTexts = c.withoutTexts)
      (ofMeanings s' tokens' e options meanings) (ofMeanings s tokens e options meanings) := by
  have places : tokens'.map Token.placeholder = tokens.map Token.placeholder := by
    have := congrArg (List.map TokenKind.placeholder) hkinds
    rwa [List.map_map, List.map_map] at this
  simp only [ofMeanings, Expr.typeset_of_kinds hkinds]
  refine (Expr.alike_evaluate tokens tokens' _ e).bind fun value' value _ _ hvalue => ?_
  refine (Template.alike_fill_of_placeholders places).bind fun symbols' symbols _ _ hsymbols => ?_
  refine (Template.alike_fill_of_placeholders places).bind fun values' values _ _ hvalues => ?_
  subst hvalue hsymbols hvalues
  split
  · refine .ok ?_
    rw [withoutTexts, withoutTexts, Skeleton.text, Skeleton.text, hchars]
  · exact .error trivial

end Compiled

/-- Renaming a variable in the formula and in the table changes nothing but the texts of the tokens:
the new name begins with a letter, is not fixed and is not used in the formula. -/
theorem compile_rename {formula name new : String} {s : Skeleton} {tokens : List Token}
    (hread : Skeleton.ofFormula formula = .ok (s, tokens)) (hfree : Source.Free name)
    (hnew : IsName new.toList) (hfixed : FixedName.find? FixedName.all new = none)
    (hfresh : ∀ t ∈ tokens, t.text ≠ new) (table : Bindings) (options : Options) :
    Alike (fun _ _ => True) (fun c' c => c'.withoutTexts = c.withoutTexts)
      (compile (Skeleton.rename formula tokens name new) (table.set new (table.get? name)) options)
      (compile formula table options) := by
  have kind : TokenKind.ofName new = .ofName name := by
    rw [TokenKind.ofName_of_not_fixed hfixed, TokenKind.ofName_of_not_fixed hfree.2]
  obtain ⟨s', tokens', hread', hchars, hkinds, htexts⟩ := Skeleton.ofFormula_rename hread hnew kind
  have hnewFree : Source.Free new := ⟨hnew.read?_eq_none, hfixed⟩
  have length : tokens'.length = tokens.length := by simpa using congrArg List.length htexts
  have trees : Alike (fun _ _ => True) Eq (Expr.ofSkeleton s' tokens') (Expr.ofSkeleton s tokens) :=
    .of_ok_iff fun e => ⟨Expr.ofSkeleton_of_chars hchars.symm length.symm,
      Expr.ofSkeleton_of_chars hchars length⟩
  rw [compile_eq, compile_eq, hread', hread, ok_bind, ok_bind]
  refine trees.bind fun e' e _ _ he => ?_
  refine (alike_bind_rename hfree hnewFree hfresh htexts options).bind fun ms' ms _ _ hms => ?_
  subst he hms
  exact Compiled.alike_ofMeanings_of_kinds hchars hkinds _ options _

/-- `2e-x+x` with `speed` for `x`: the sign behind `2e` is still no part of a number. -/
theorem compile_rename_speed :
    let b : Binding := ⟨0x4000000000000000, "x", "m"⟩
    let a : Binding := ⟨0x3ff8000000000000, "a", "m"⟩
    Alike (fun _ _ => True) (fun c' c => c'.withoutTexts = c.withoutTexts)
        (compile "2e-speed+speed" [("2e", a), ("x", b), ("speed", b)] .standard)
        (compile "2e-x+x" [("2e", a), ("x", b)] .standard) ∧
      (compile "2e-x+x" [("2e", a), ("x", b)] .standard).toOption.map (·.value) =
        some (.real (.ofBits 0x3ff8000000000000)) := by
  intro b a
  have read : Skeleton.ofFormula "2e-x+x" = .ok
      (⟨[⟨'□', 0⟩, ⟨'-', 2⟩, ⟨'□', 3⟩, ⟨'+', 4⟩, ⟨'□', 5⟩], 6⟩,
        [⟨"2e", 0, 0, .ordinary⟩, ⟨"x", 1, 3, .ordinary⟩,
          ⟨"x", 2, 5, .ordinary⟩]) := by rfl
  have chars : ∀ c ∈ "speed".toList, IsWordChar c := by
    simpa using ⟨⟨rfl, rfl, rfl⟩, ⟨rfl, rfl, rfl⟩, ⟨rfl, rfl, rfl⟩, ⟨rfl, rfl, rfl⟩⟩
  have isName : IsName "speed".toList := ⟨⟨'s', "peed".toList, rfl, rfl, by decide⟩, chars⟩
  exact ⟨@compile_rename "2e-x+x" "x" "speed" _ _ read ⟨by decide, by decide⟩ isName (by decide)
    (by decide) [("2e", a), ("x", b)] .standard, by decide +kernel⟩

end Formulary
