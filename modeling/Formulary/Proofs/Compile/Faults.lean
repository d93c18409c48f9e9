import Formulary.Proofs.Compile
import Formulary.Proofs.Expr.Faults
import Formulary.Proofs.Expr.Places
import Formulary.Proofs.Skeleton.Trace

/-! # Where compiling fails

A formula can be refused when it is cut, when it is read, when its names are bound, when it is
evaluated and when its template is filled.  Whatever is malformed is reported at a place of the
formula: once the formula has been cut, at its beginning, at its end, or where one of the cells of
its skeleton comes from.
-/

namespace Formulary

open Error (DefectAt IsFault)

/-! ## Cutting -/

namespace Run

theorem length_eq (run : List Char) :
    indent run + (word run).length + (afterWord run).length = run.length := by
  have := congrArg List.length (cut run).text
  simpa [indent, Nat.add_assoc] using this.symm

/-- The blank where an operator is missing lies in the run. -/
theorem lt_of_gap? {run : List Char} {k : Nat} (h : gap? run = some k) : k < run.length := by
  unfold gap? at h
  split at h
  · cases h
  · next hrest =>
    cases h
    have nonempty : afterWord run ≠ [] := fun hnil => hrest (by rw [hnil]; rfl)
    have := List.length_pos_iff.2 nonempty
    rw [← length_eq run]
    omega

end Run

namespace Piece

theorem lt_of_gap? {p : Piece} {i k : Nat} (h : p.gap? i = some k) : k < i + p.text.length := by
  cases p with
  | symbol text => cases h
  | run text =>
    obtain ⟨j, hj, rfl⟩ := Option.map_eq_some_iff.1 h
    exact Nat.add_lt_add_left (Run.lt_of_gap? hj) i

/-- Pieces lie in the text that they make up. -/
theorem stop_le_of_mem_locate {ps : List Piece} {i : Nat} {q : Nat × Piece}
    (h : q ∈ locate i ps) : q.1 + q.2.text.length ≤ i + (ps.flatMap text).length := by
  induction ps generalizing i with
  | nil => cases h
  | cons p ps ih =>
    rw [List.flatMap_cons, List.length_append]
    rcases List.mem_cons.1 h with rfl | h
    · dsimp only
      omega
    · have := ih h
      omega

theorem lt_of_findSome?_gap? {ps : List Piece} {i k : Nat}
    (h : ((locate i ps).findSome? fun (i, p) => p.gap? i) = some k) :
    k < i + (ps.flatMap text).length := by
  obtain ⟨q, hq, hgap⟩ := List.exists_of_findSome?_eq_some h
  exact Nat.lt_of_lt_of_le (lt_of_gap? hgap) (stop_le_of_mem_locate hq)

end Piece

/-- A formula that cannot be cut has a defect inside it, or at its beginning if it is empty. -/
theorem Skeleton.failsOnly_ofFormula (formula : String) :
    FailsOnly (DefectAt (List.range (formula.toList.length + 1))) (ofFormula formula) := by
  have inside {k : Nat} (hk : k < formula.toList.length) (d : Defect) :
      DefectAt (List.range (formula.toList.length + 1)) (.malformed k d) :=
    .malformed (List.mem_range.2 (Nat.lt_succ_of_lt hk)) d
  unfold ofFormula
  dsimp only
  split
  · next i hi => exact failsOnly_error.2 (inside (List.findIdx?_eq_some_iff_findIdx_eq.1 hi).1 _)
  · split
    · next i hi =>
      have := Piece.lt_of_findSome?_gap? hi
      rw [Piece.flatMap_text_ofFormula, Nat.zero_add] at this
      exact failsOnly_error.2 (inside this _)
    · split
      · exact failsOnly_error.2 (.malformed (List.mem_range.2 (Nat.succ_pos _)) _)
      · exact failsOnly_ok _ _

/-! ## After cutting -/

/-- Names can only be unknown. -/
theorem failsOnly_bind (table : Bindings) (options : Options) (tokens : List Token) :
    FailsOnly (fun err => ∃ name, err = .unknownIdentifier name) (bind table options tokens) := by
  induction tokens with
  | nil => exact failsOnly_ok _ []
  | cons t tokens ih =>
    rw [bind]
    split
    · exact failsOnly_error.2 ⟨t.text, rfl⟩
    · exact ih.bind fun _ _ => failsOnly_ok _ _

theorem Compiled.failsOnly_ofMeanings (s : Skeleton) (tokens : List Token) (e : Expr)
    (options : Options) (meanings : List Meaning) :
    FailsOnly (Expr.FaultOrDefect tokens) (ofMeanings s tokens e options meanings) := by
  have fill (texts : List String) :
      FailsOnly (Expr.FaultOrDefect tokens)
        (Template.fill (e.typeset tokens options) tokens texts) :=
    (Template.failsOnly_fill _ _ _).mono fun _ => .inr
  refine (Expr.failsOnly_evaluate _ _ e).bind fun v _ =>
    (fill _).bind fun _ _ => (fill _).bind fun _ _ => ?_
  split
  · exact failsOnly_ok _ _
  · exact failsOnly_error.2 (.inl (Error.isFault_arithmetic _))

/-- Is what is malformed, if anything is, at one of the given positions? -/
def Error.Placed (positions : List Nat) (err : Error) : Prop :=
  ∀ p d, err = .malformed p d → p ∈ positions

theorem Error.DefectAt.placed {positions : List Nat} {err : Error} (h : DefectAt positions err) :
    err.Placed positions := by
  obtain ⟨q, hq, d, rfl⟩ := h
  intro p d' heq
  cases heq
  exact hq

theorem Error.IsFault.placed {positions : List Nat} {err : Error} (h : IsFault err) :
    err.Placed positions := by
  obtain ⟨fault, rfl⟩ := h
  intro p d heq
  cases heq

section Read

variable {formula : String} {s : Skeleton} {tokens : List Token}
  (h : Skeleton.ofFormula formula = .ok (s, tokens))

include h

/-- Tokens have their positions among the places of the skeleton. -/
theorem Skeleton.positions_subset_places : tokens.map (·.position) ⊆ s.places := by
  intro p hp
  obtain ⟨t, ht, rfl⟩ := List.mem_map.1 hp
  have place : (⟨t.placeholder, t.position⟩ : Cell) ∈ s.cells := by
    refine (List.mem_filter.1 (?_ : _ ∈ s.cells.filter (isPlaceholder ·.char))).1
    rw [placeholders_of_ofFormula h]
    exact List.mem_map_of_mem ht
  exact List.mem_append_left _ (List.mem_map_of_mem place)

/-- Once the formula has been cut, defects are found at places of its skeleton. -/
theorem failsOnly_compile (table : Bindings) (options : Options) :
    FailsOnly (Error.Placed (0 :: s.places)) (compile formula table options) := by
  rw [compile_eq, h, ok_bind]
  have read := (Expr.failsOnly_ofSkeleton s tokens).mono fun _ => DefectAt.placed
  refine read.bind fun e _ => FailsOnly.bind ?_ fun meanings _ => ?_
  · refine (failsOnly_bind table options tokens).mono fun err => ?_
    rintro ⟨name, rfl⟩ p d heq
    cases heq
  · refine (Compiled.failsOnly_ofMeanings s tokens e options meanings).mono fun err hfails => ?_
    rcases hfails with hfault | hdefect
    · exact hfault.placed
    · exact (hdefect.mono (List.cons_subset_cons 0 (Skeleton.positions_subset_places h))).placed

end Read

/-- What is malformed is reported at a real place of the formula.  Once the formula has been cut,
this is its beginning, its end or the place of a cell, and so never lies strictly inside the text of
a token. -/
theorem compile_malformed {formula : String} {table : Bindings} {options : Options} {p : Nat}
    {d : Defect} (h : compile formula table options = .error (.malformed p d)) :
    p ≤ formula.toList.length ∧
      ∀ s tokens, Skeleton.ofFormula formula = .ok (s, tokens) →
        (p = 0 ∨ p = formula.toList.length ∨ ∃ c ∈ s.cells, p = c.position) ∧
          ∀ t ∈ tokens, ¬(t.position < p ∧ p < t.position + t.text.toList.length) := by
  cases hread : Skeleton.ofFormula formula with
  | error err =>
    rw [compile_eq, hread] at h
    cases h
    have := (Skeleton.failsOnly_ofFormula formula _ hread).placed p d rfl
    refine ⟨Nat.le_of_lt_succ (List.mem_range.1 this), fun s tokens hs => ?_⟩
    cases hs
  | ok read =>
    obtain ⟨s, tokens⟩ := read
    have traced := Skeleton.traced_of_ofFormula hread
    obtain ⟨-, -, -, -, hlength, -⟩ := Skeleton.ofFormula_eq_ok_iff.1 hread
    have place : p = 0 ∨ p = formula.toList.length ∨ ∃ c ∈ s.cells, p = c.position := by
      have := failsOnly_compile hread table options _ h p d rfl
      simpa [Skeleton.places, hlength, or_comm, eq_comm] using this
    constructor
    · rcases place with rfl | rfl | ⟨c, hc, rfl⟩
      · exact Nat.zero_le _
      · exact Nat.le_refl _
      · exact Nat.le_of_lt (traced.inside c hc)
    · intro s' tokens' heq
      cases heq
      refine ⟨place, fun t ht => ?_⟩
      rcases place with rfl | rfl | ⟨c, hc, rfl⟩
      · omega
      · rintro ⟨hstart, hstop⟩
        have := (traced.found t ht).length_le
        rw [List.length_drop] at this
        omega
      · exact traced.not_inside hc ht

/-- A bracket that is not closed is reported where it stands, behind the name of the function. -/
theorem compile_malformed_bracket :
    compile "1 + sqrt(x" [] .standard = .error (.malformed 8 .openedNotClosed) ∧
      8 ≤ "1 + sqrt(x".toList.length ∧
      ∀ s tokens, Skeleton.ofFormula "1 + sqrt(x" = .ok (s, tokens) →
        (8 = 0 ∨ 8 = "1 + sqrt(x".toList.length ∨ ∃ c ∈ s.cells, 8 = c.position) ∧
          ∀ t ∈ tokens, ¬(t.position < 8 ∧ 8 < t.position + t.text.toList.length) := by
  have refused : compile "1 + sqrt(x" [] .standard = .error (.malformed 8 .openedNotClosed) := by
    rfl
  exact ⟨refused, compile_malformed refused⟩

end Formulary
