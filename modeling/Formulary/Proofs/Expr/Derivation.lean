import Formulary.Expr.OfSkeleton
import Formulary.Proofs.Expr.Spelling
import Formulary.Proofs.Outcome
import Formulary.Proofs.Stretch.Cut

/-! # Derivations

What it means that a stretch of a skeleton is read rightly: the tree is one that the grammar derives
at the level of the reader, its spelling is the stretch, and it is no taller than allowed.
-/

namespace Formulary.Expr

variable {place : Nat → Char}

/-- Does the grammar derive the stretch from the tree, at level `l`? -/
structure Derives (place : Nat → Char) (l : Level) (s : Stretch) (e : Expr) : Prop where
  wellFormed : e.WellFormed
  level : l ≤ e.level
  glyphs : e.glyphs place = s.glyphs
  height : e.height ≤ maxHeight

/-- Has every token the placeholder that `place` gives? -/
def Labelled (place : Nat → Char) (gs : List Glyph) : Prop :=
  ∀ g ∈ gs, ∀ i, g.token = some i → g.char = place i

@[simp] theorem labelled_append {gs hs : List Glyph} :
    Labelled place (gs ++ hs) ↔ Labelled place gs ∧ Labelled place hs :=
  List.forall_mem_append

@[simp] theorem labelled_cons {g : Glyph} {gs : List Glyph} :
    Labelled place (g :: gs) ↔ (∀ i, g.token = some i → g.char = place i) ∧ Labelled place gs :=
  List.forall_mem_cons

theorem labelled_plain (cs : List Char) : Labelled place (cs.map Glyph.plain) := by
  rintro g hg i hi
  obtain ⟨c, -, rfl⟩ := List.mem_map.1 hg
  cases hi

/-- In a spelling every token has its placeholder. -/
theorem labelled_glyphs (e : Expr) : Labelled place (e.glyphs place) := by
  induction e with
  | operand i => simp [glyphs, Labelled]
  | group x ih =>
    simp only [glyphs, labelled_append, labelled_cons]
    exact ⟨⟨by simp, ih⟩, labelled_cons.1 (labelled_plain [')'])⟩
  | unary s x ih => simpa [glyphs] using ih
  | binary op a b iha ihb => simp [glyphs, iha, ihb, labelled_plain]
  | call f args ih =>
    have hargs : Labelled place (glyphsArgs place args) := by
      cases args with
      | nil => simp [glyphsArgs, Labelled]
      | cons a args =>
        obtain ⟨ha, hrest⟩ := List.forall_mem_cons.1 ih
        rw [glyphsArgs_cons, labelled_append]
        refine ⟨ha, ?_⟩
        rintro g hg i hi
        obtain ⟨x, hx, hg⟩ := List.mem_flatMap.1 hg
        rcases List.mem_cons.1 hg with rfl | hg
        · cases hi
        · exact hrest x hx g hg i hi
    simp only [glyphs, labelled_append, labelled_cons]
    exact ⟨⟨by simp, by simp, hargs⟩, labelled_cons.1 (labelled_plain [')'])⟩

/-! ## Branches -/

namespace Branch

/-- A tree and its height. -/
def of (e : Expr) : Branch :=
  ⟨e, e.height, rfl⟩

/-- The height is known from the tree. -/
theorem of_tree (b : Branch) : of b.tree = b :=
  Branch.ext rfl b.height_eq.symm

@[simp] theorem group_of (e : Expr) : group (of e) = of (.group e) :=
  (of_tree _).symm

@[simp] theorem unary_of (sign : Sign) (e : Expr) : unary sign (of e) = of (.unary sign e) :=
  (of_tree _).symm

@[simp] theorem binary_of (op : BinOp) (a b : Expr) :
    binary op (of a) (of b) = of (.binary op a b) :=
  (of_tree _).symm

@[simp] theorem call_of (f : Nat) (args : List Expr) :
    call f (args.map of) = of (.call f args) := by
  have trees : (args.map of).map (·.tree) = args := by rw [List.map_map]; exact List.map_id args
  refine (of_tree _).symm.trans (congrArg of ?_)
  exact congrArg (Expr.call f) trees

end Branch

theorem node_of {p : Nat} {e : Expr} (h : e.height ≤ maxHeight) : node p (.of e) = .ok (.of e) :=
  if_pos h

theorem node_eq_ok_iff {p : Nat} {b b' : Branch} :
    node p b = .ok b' ↔ b = b' ∧ b.tree.height ≤ maxHeight := by
  rw [← b.height_eq]
  by_cases h : b.height ≤ maxHeight <;> simp [node, h]

/-! ## Readers -/

/-- Is what the reader gives derived at level `l`? -/
def Sound (place : Nat → Char) (l : Level) (reader : Stretch → Except Error Branch) : Prop :=
  ∀ s b, Labelled place s.glyphs → reader s = .ok b → Derives place l s b.tree

/-- Does the reader give every tree derived at level `l` whose brackets are nested less than `n`
deep? -/
def Complete (place : Nat → Char) (l : Level) (n : Nat)
    (reader : Stretch → Except Error Branch) : Prop :=
  ∀ s e, Derives place l s e → e.nesting < n → reader s = .ok (.of e)

theorem Derives.chars {l : Level} {s : Stretch} {e : Expr} (h : Derives place l s e) :
    s.chars = e.spell place := by
  rw [Stretch.chars_eq_map_glyphs, ← h.glyphs]
  rfl

end Formulary.Expr
