import Formulary.Expr.Evaluate
import Formulary.Proofs.Expr.Spelling
import Formulary.Proofs.Outcome

/-! # Substitution

An expression with expressions in the place of its operands.  If these cannot come apart, being
operands or groups, the grammar is respected and the spelling is that of the expression with each
operand spelled out; and with the values of the operands the expression has the value it had.
-/

namespace Formulary.Expr

open Glyph (plain)

mutual

/-- The expression with `leaf i` in the place of the operand `i`, and its callees renamed. -/
def substitute (leaf : Nat → Expr) (callee : Nat → Nat) : Expr → Expr
  | operand i => leaf i
  | group x => group (x.substitute leaf callee)
  | unary s x => unary s (x.substitute leaf callee)
  | binary op a b => binary op (a.substitute leaf callee) (b.substitute leaf callee)
  | call f args => call (callee f) (substituteList leaf callee args)

def substituteList (leaf : Nat → Expr) (callee : Nat → Nat) : List Expr → List Expr
  | [] => []
  | e :: es => e.substitute leaf callee :: substituteList leaf callee es

end

mutual

/-- The tokens that are applied to arguments. -/
def callees : Expr → List Nat
  | operand _ => []
  | group x => x.callees
  | unary _ x => x.callees
  | binary _ a b => a.callees ++ b.callees
  | call f args => f :: calleesList args

def calleesList : List Expr → List Nat
  | [] => []
  | e :: es => e.callees ++ calleesList es

end

/-- What cannot come apart wherever it is put. -/
inductive IsLeaf : Expr → Prop where
  | operand (i : Nat) : IsLeaf (operand i)
  | group (x : Expr) : IsLeaf (group x)

theorem IsLeaf.level {e : Expr} (h : e.IsLeaf) : e.level = .primary := by
  cases h <;> rfl

section Trees

variable {leaf : Nat → Expr} {callee : Nat → Nat}

theorem length_substituteList (args : List Expr) :
    (substituteList leaf callee args).length = args.length := by
  induction args with
  | nil => rfl
  | cons a args ih => rw [substituteList, List.length_cons, ih, List.length_cons]

/-- Every operand in its own place. -/
theorem substitute_operand (e : Expr) : e.substitute operand (fun f => f) = e := by
  induction e with
  | operand i => rfl
  | group x ih => rw [substitute, ih]
  | unary s x ih => rw [substitute, ih]
  | binary op a b iha ihb => rw [substitute, iha, ihb]
  | call f args ih =>
    have hargs : substituteList operand (fun f => f) args = args := by
      induction args with
      | nil => rfl
      | cons a args ihargs =>
        obtain ⟨ha, hrest⟩ := List.forall_mem_cons.1 ih
        rw [substituteList, ha, ihargs hrest]
    rw [substitute, hargs]

theorem level_substitute (hleaf : ∀ i, (leaf i).IsLeaf) (e : Expr) :
    (e.substitute leaf callee).level = e.level := by
  cases e with
  | operand i => exact (hleaf i).level
  | group | unary | binary | call => rfl

theorem wellFormed_substitute (hleaf : ∀ i, (leaf i).IsLeaf) (hwf : ∀ i, (leaf i).WellFormed)
    {e : Expr} (h : e.WellFormed) : (e.substitute leaf callee).WellFormed := by
  induction e with
  | operand i => exact hwf i
  | group x ih => exact ih h
  | unary s x ih => exact ⟨ih h.1, (level_substitute hleaf x).symm ▸ h.2⟩
  | binary op a b iha ihb =>
    exact ⟨⟨iha h.1.1, (level_substitute hleaf a).symm ▸ h.1.2⟩, ihb h.2.1,
      (level_substitute hleaf b).symm ▸ h.2.2⟩
  | call f args ih =>
    obtain ⟨hne, hargs⟩ := h
    refine ⟨fun hnil => hne (List.length_eq_zero_iff.1 ?_), ?_⟩
    · rw [← @length_substituteList leaf callee, hnil]
      rfl
    · clear hne
      induction args with
      | nil => trivial
      | cons a args ihargs =>
        obtain ⟨ha, hrest⟩ := List.forall_mem_cons.1 ih
        exact ⟨ha hargs.1, ihargs hrest hargs.2⟩

theorem height_le_substitute (leaf : Nat → Expr) (callee : Nat → Nat) (e : Expr) :
    e.height ≤ (e.substitute leaf callee).height := by
  induction e with
  | operand i => exact height_pos (leaf i)
  | group x ih => exact Nat.succ_le_succ ih
  | unary s x ih => exact Nat.succ_le_succ ih
  | binary op a b iha ihb =>
    simp only [substitute, height]
    omega
  | call f args ih =>
    refine Nat.succ_le_succ ?_
    induction args with
    | nil => exact Nat.le_refl _
    | cons a args ihargs =>
      obtain ⟨ha, hrest⟩ := List.forall_mem_cons.1 ih
      have := ihargs hrest
      simp only [substituteList, heightList]
      omega

end Trees

/-! ## Spelling -/

/-- What is spelled for a glyph when operands are replaced. -/
def image (leaf : Nat → Expr) (place : Nat → Char) (g : Glyph) : List Glyph :=
  match g.token with
  | some i => (leaf i).glyphs place
  | none => [g]

section Spelling

variable {leaf : Nat → Expr} {callee : Nat → Nat} {place place' : Nat → Char}

@[simp] theorem image_plain (leaf : Nat → Expr) (place : Nat → Char) (c : Char) :
    image leaf place (plain c) = [plain c] := rfl

theorem flatMap_image_plain (leaf : Nat → Expr) (place : Nat → Char) (cs : List Char) :
    (cs.map plain).flatMap (image leaf place) = cs.map plain := by
  rw [List.flatMap_map, List.map_eq_flatMap]
  rfl

theorem glyphs_substitute {e : Expr} (hcallee : ∀ f ∈ e.callees, leaf f = operand (callee f)) :
    (e.substitute leaf callee).glyphs place' = (e.glyphs place).flatMap (image leaf place') := by
  induction e with
  | operand i => exact (List.append_nil _).symm
  | group x ih => simp [substitute, glyphs, ih hcallee]
  | unary s x ih => simp [substitute, glyphs, ih hcallee]
  | binary op a b iha ihb =>
    obtain ⟨ha, hb⟩ := List.forall_mem_append.1 hcallee
    simp [substitute, glyphs, iha ha, ihb hb, flatMap_image_plain]
  | call f args ih =>
    obtain ⟨hf, hargs⟩ := List.forall_mem_cons.1 hcallee
    have head : image leaf place' ⟨place f, some f⟩ = [⟨place' (callee f), some (callee f)⟩] := by
      simp [image, hf, glyphs]
    have rest : glyphsArgs place' (substituteList leaf callee args) =
        (glyphsArgs place args).flatMap (image leaf place') := by
      clear hf hcallee head
      induction args with
      | nil => rfl
      | cons a args ihargs =>
        obtain ⟨ha, hrest⟩ := List.forall_mem_cons.1 ih
        obtain ⟨hcallees, hcalleesRest⟩ := List.forall_mem_append.1 hargs
        have tail := ihargs hrest hcalleesRest
        rw [substituteList, glyphsArgs, ha hcallees, glyphsArgs, tail]
        cases args <;> simp [substituteList]
    simp [substitute, glyphs, head, rest]

/-- In the spelling a callee stands before an opening bracket. -/
theorem infix_of_mem_callees {e : Expr} {f : Nat} (h : f ∈ e.callees) :
    [⟨place f, some f⟩, plain '('] <:+: e.glyphs place := by
  induction e with
  | operand i => cases h
  | group x ih => exact (ih h).trans ⟨[plain '('], [plain ')'], rfl⟩
  | unary s x ih => exact (ih h).trans (List.suffix_cons _ _).isInfix
  | binary op a b iha ihb =>
    rcases List.mem_append.1 h with h | h
    · exact (iha h).trans ⟨[], op.symbol.map plain ++ b.glyphs place, by simp [glyphs]⟩
    · exact (ihb h).trans ⟨a.glyphs place ++ op.symbol.map plain, [], by simp [glyphs]⟩
  | call g args ih =>
    rcases List.mem_cons.1 h with rfl | hmem
    · exact ⟨[], glyphsArgs place args ++ [plain ')'], rfl⟩
    · clear h
      refine List.IsInfix.trans ?_ (⟨[⟨place g, some g⟩, plain '('], [plain ')'], rfl⟩ :
        glyphsArgs place args <:+: glyphs place (call g args))
      induction args with
      | nil => cases hmem
      | cons a args ihargs =>
        obtain ⟨ha, hrest⟩ := List.forall_mem_cons.1 ih
        rcases List.mem_append.1 hmem with hmem | hmem
        · exact (ha hmem).trans (List.prefix_append _ _).isInfix
        · have tail := ihargs hrest hmem
          cases args with
          | nil => cases hmem
          | cons b args =>
            exact tail.trans ⟨a.glyphs place ++ [plain ','], [], by simp [glyphsArgs]⟩

end Spelling

/-! ## Values -/

section Values

variable {leaf : Nat → Expr} {callee : Nat → Nat} {tokens tokens' : List Token}
  {terms terms' : List Term}

/-- With the values of the operands in their places the value is the same. -/
theorem alike_evaluate_substitute {e : Expr}
    (hleaf : ∀ i ∈ e.tokenOrder, Alike (fun _ _ => True) Eq (evaluate tokens' terms' (leaf i))
      (operandValue tokens terms i))
    (hcallee : ∀ f ∈ e.callees, terms'[callee f]? = terms[f]?) :
    Alike (fun _ _ => True) Eq (evaluate tokens' terms' (e.substitute leaf callee))
      (evaluate tokens terms e) := by
  induction e with
  | operand i => exact hleaf i (List.mem_singleton_self i)
  | group x ih => exact ih hleaf hcallee
  | unary s x ih =>
    refine (ih hleaf hcallee).bind fun v v' _ _ h => .ok ?_
    rw [h]
  | binary op a b iha ihb =>
    obtain ⟨hla, hlb⟩ := List.forall_mem_append.1 hleaf
    obtain ⟨hca, hcb⟩ := List.forall_mem_append.1 hcallee
    refine (iha hla hca).bind fun v v' _ _ h => ?_
    refine (ihb hlb hcb).bind fun w w' _ _ h' => ?_
    subst h h'
    exact Alike.same fun _ => trivial
  | call f args ih =>
    obtain ⟨-, hleaves⟩ := List.forall_mem_cons.1 hleaf
    obtain ⟨hf, hcallees⟩ := List.forall_mem_cons.1 hcallee
    have hargs : Alike (fun _ _ => True) Eq
        (evaluateAll tokens' terms' (substituteList leaf callee args))
        (evaluateAll tokens terms args) := by
      clear hleaf hcallee hf
      induction args with
      | nil => exact .ok rfl
      | cons a args ihargs =>
        obtain ⟨ha, hrest⟩ := List.forall_mem_cons.1 ih
        obtain ⟨hla, hlrest⟩ := List.forall_mem_append.1 hleaves
        obtain ⟨hca, hcrest⟩ := List.forall_mem_append.1 hcallees
        refine (ha hla hca).bind fun v v' _ _ h => ?_
        refine (ihargs hrest hlrest hcrest).bind fun vs vs' _ _ h' => .ok ?_
        rw [h, h']
    have function : Alike (fun _ _ => True) Eq
        (calleeFunction tokens' terms' (callee f) (substituteList leaf callee args).length)
        (calleeFunction tokens terms f args.length) := by
      rw [length_substituteList, calleeFunction, calleeFunction, hf]
      split
      · split
        · exact .ok rfl
        · exact .error trivial
      · exact .error trivial
    refine function.bind fun p p' _ _ h => ?_
    refine hargs.bind fun vs vs' _ _ h' => ?_
    subst h h'
    exact Alike.same fun _ => trivial

end Values

end Formulary.Expr
