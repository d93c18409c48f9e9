import Formulary.Expr.Evaluate
import Formulary.Proofs.Expr.OfSkeleton

/-! # Subexpressions in their place

A context is a tree with a hole, and says where in a tree a subexpression stands.  Brackets around a
subexpression are redundant: the skeleton with the brackets is read as the same tree with a group in
the hole, which has the same tokens in the same order and the same value.
-/

namespace Formulary

namespace Expr

/-- A tree with one hole. -/
inductive Context where
  | hole
  | group (inner : Context)
  | unary (sign : Sign) (operand : Context)
  | left (op : BinOp) (left : Context) (right : Expr)
  | right (op : BinOp) (left : Expr) (right : Context)
  /-- The hole is in an argument of a call, between other arguments. -/
  | arg (callee : Nat) (before : List Expr) (arg : Context) (after : List Expr)

namespace Context

/-- The tree with an expression in its hole. -/
def plug : Context → Expr → Expr
  | hole, x => x
  | group c, x => .group (c.plug x)
  | unary s c, x => .unary s (c.plug x)
  | left op c b, x => .binary op (c.plug x) b
  | right op a c, x => .binary op a (c.plug x)
  | arg f before c after, x => .call f (before ++ c.plug x :: after)

/-! ## Where the hole is written -/

section Spelling

variable (place : Nat → Char)

/-- What is written in front of the hole. -/
def before : Context → List Char
  | hole => []
  | group c => '(' :: c.before
  | unary s c => s.symbol :: c.before
  | left _ c _ => c.before
  | right op a c => a.spell place ++ op.symbol ++ c.before
  | arg f args c _ => place f :: '(' :: (args.flatMap fun a => a.spell place ++ [',']) ++ c.before

/-- What is written behind the hole. -/
def after : Context → List Char
  | hole => []
  | group c => c.after ++ [')']
  | unary _ c => c.after
  | left op c b => c.after ++ op.symbol ++ b.spell place
  | right _ _ c => c.after
  | arg _ _ c args => c.after ++ (args.flatMap fun a => ',' :: a.spell place) ++ [')']

theorem spellArgs_append_cons (args : List Expr) (x : Expr) (rest : List Expr) :
    spellArgs place (args ++ x :: rest) =
      (args.flatMap fun a => a.spell place ++ [',']) ++ x.spell place ++
        rest.flatMap fun a => ',' :: a.spell place := by
  induction args with
  | nil => exact spellArgs_cons place x rest
  | cons a args ih =>
    have next : spellArgs place (a :: (args ++ x :: rest)) =
        a.spell place ++ ',' :: spellArgs place (args ++ x :: rest) := by
      cases args <;> simp
    rw [List.cons_append, next, ih]
    simp

theorem spell_plug (c : Context) (x : Expr) :
    (c.plug x).spell place = c.before place ++ x.spell place ++ c.after place := by
  induction c with
  | hole => simp [plug, before, after]
  | group c ih => simp [plug, before, after, ih]
  | unary s c ih => simp [plug, before, after, ih]
  | left op c b ih => simp [plug, before, after, ih]
  | right op a c ih => simp [plug, before, after, ih]
  | arg f args c rest ih => simp [plug, before, after, ih, spellArgs_append_cons]

end Spelling

/-! ## What a group in the hole leaves as it is -/

/-- A group may stand wherever its inner expression may. -/
theorem wellFormed_plug_group {c : Context} {x : Expr} (h : (c.plug x).WellFormed) :
    (c.plug (.group x)).WellFormed ∧ (c.plug x).level ≤ (c.plug (.group x)).level := by
  induction c with
  | hole => exact ⟨h, Level.le_primary _⟩
  | group c ih => exact ⟨(ih h).1, Level.le_refl _⟩
  | unary s c ih =>
    obtain ⟨hx, hlevel⟩ := h
    exact ⟨⟨(ih hx).1, Level.le_trans hlevel (ih hx).2⟩, Level.le_refl _⟩
  | left op c b ih =>
    obtain ⟨⟨hx, hlevel⟩, hb⟩ := h
    exact ⟨⟨⟨(ih hx).1, Level.le_trans hlevel (ih hx).2⟩, hb⟩, Level.le_refl _⟩
  | right op a c ih =>
    obtain ⟨ha, hx, hlevel⟩ := h
    exact ⟨⟨ha, (ih hx).1, Level.le_trans hlevel (ih hx).2⟩, Level.le_refl _⟩
  | arg f args c rest ih =>
    have hargs := wellFormedArgs_iff.1 h.2
    have hx : (c.plug x).WellFormed := hargs _ (by simp)
    refine ⟨⟨by simp, wellFormedArgs_iff.2 fun a ha => ?_⟩, Level.le_refl _⟩
    rcases List.mem_append.1 ha with ha | ha
    · exact hargs a (List.mem_append_left _ ha)
    · rcases List.mem_cons.1 ha with rfl | ha
      · exact (ih hx).1
      · exact hargs a (List.mem_append_right _ (List.mem_cons_of_mem _ ha))

theorem tokenOrderList_append (args rest : List Expr) :
    tokenOrderList (args ++ rest) = tokenOrderList args ++ tokenOrderList rest := by
  induction args with
  | nil => rfl
  | cons a args ih => simp [tokenOrderList, ih]

theorem tokenOrder_plug {x y : Expr} (h : x.tokenOrder = y.tokenOrder) (c : Context) :
    (c.plug x).tokenOrder = (c.plug y).tokenOrder := by
  induction c with
  | hole => exact h
  | group c ih => exact ih
  | unary s c ih => exact ih
  | left op c b ih => simp only [plug, tokenOrder, ih]
  | right op a c ih => simp only [plug, tokenOrder, ih]
  | arg f args c rest ih => simp only [plug, tokenOrder, tokenOrderList_append, tokenOrderList, ih]

section Values

variable (tokens : List Token) (terms : List Term)

theorem evaluateAll_append_cons {x y : Expr}
    (h : x.evaluate tokens terms = y.evaluate tokens terms) (args rest : List Expr) :
    evaluateAll tokens terms (args ++ x :: rest) =
      evaluateAll tokens terms (args ++ y :: rest) := by
  induction args with
  | nil => simp only [List.nil_append, evaluateAll, h]
  | cons a args ih => simp only [List.cons_append, evaluateAll, ih]

/-- Expressions with the same outcome are exchangeable. -/
theorem evaluate_plug {x y : Expr} (h : x.evaluate tokens terms = y.evaluate tokens terms)
    (c : Context) : (c.plug x).evaluate tokens terms = (c.plug y).evaluate tokens terms := by
  induction c with
  | hole => exact h
  | group c ih => simp only [plug, evaluate, ih]
  | unary s c ih => simp only [plug, evaluate, ih]
  | left op c b ih => simp only [plug, evaluate, ih]
  | right op a c ih => simp only [plug, evaluate, ih]
  | arg f args c rest ih =>
    have same := evaluateAll_append_cons tokens terms ih args rest
    simp only [plug, evaluate, same, List.length_append, List.length_cons]

end Values

end Context

/-! ## Redundant brackets -/

/-- The text with brackets around what stands between two places. -/
def bracketed (text : List Char) (lo hi : Nat) : List Char :=
  text.take lo ++ '(' :: (text.take hi).drop lo ++ ')' :: text.drop hi

theorem drop_take_append (xs ys zs : List Char) :
    ((xs ++ ys ++ zs).take (xs.length + ys.length)).drop xs.length = ys := by
  rw [← List.length_append, List.take_left, List.drop_left]

theorem bracketed_append (xs ys zs : List Char) :
    bracketed (xs ++ ys ++ zs) xs.length (xs.length + ys.length) =
      xs ++ '(' :: ys ++ ')' :: zs := by
  have front : (xs ++ ys ++ zs).take xs.length = xs := by simp
  have back : (xs ++ ys ++ zs).drop (xs.length + ys.length) = zs := by
    rw [← List.length_append, List.drop_left]
  rw [bracketed, front, drop_take_append, back]

/-- Brackets around a subexpression `x`, put in where it is written, are redundant: within the
limits of the reader they make a group of `x`, and nothing else changes. -/
theorem ofSkeleton_plug_group {s : Skeleton} {tokens : List Token} {c : Context} {x : Expr}
    (h : ofSkeleton s tokens = .ok (c.plug x)) :
    let lo := (c.before s.placeholderAt).length
    let hi := lo + (x.spell s.placeholderAt).length
    (s.chars.take hi).drop lo = x.spell s.placeholderAt ∧
      ∀ s' : Skeleton, s'.chars = bracketed s.chars lo hi →
        (∀ p, p <+: s'.chars → p.count '(' ≤ p.count ')' + 200) →
        (c.plug (group x)).height ≤ 512 →
          ofSkeleton s' tokens = .ok (c.plug (group x)) ∧
          (c.plug (group x)).tokenOrder = (c.plug x).tokenOrder ∧
          ∀ terms, (c.plug (group x)).evaluate tokens terms =
            (c.plug x).evaluate tokens terms := by
  intro lo hi
  obtain ⟨-, -, hd⟩ := derives_of_ofSkeleton h
  have order := tokenOrder_of_ofSkeleton h
  have text : s.chars = c.before s.placeholderAt ++ x.spell s.placeholderAt ++
      c.after s.placeholderAt := by
    rw [← Context.spell_plug]
    exact (glyphs_eq_ofSkeleton_iff.1 hd.glyphs).1.symm
  have sameOrder : (c.plug (group x)).tokenOrder = (c.plug x).tokenOrder :=
    @Context.tokenOrder_plug (group x) x rfl c
  refine ⟨?_, fun s' hs' hnesting hheight => ⟨?_, sameOrder, fun terms => ?_⟩⟩
  · rw [text]
    exact drop_take_append _ _ _
  · have chars : s'.chars = c.before s.placeholderAt ++ '(' :: x.spell s.placeholderAt ++
        ')' :: c.after s.placeholderAt := by
      rw [hs', text, bracketed_append]
    -- brackets are no placeholders, so each token keeps its own
    have places : s'.placeholderAt = s.placeholderAt := by
      funext k
      have bracket : isPlaceholder '(' = false ∧ isPlaceholder ')' = false := ⟨rfl, rfl⟩
      simp [Skeleton.placeholderAt, chars, text, bracket]
    refine ofSkeleton_of_spell (Context.wellFormed_plug_group hd.wellFormed).1 ?_
      (sameOrder.trans order) hnesting hheight
    rw [places, Context.spell_plug, chars, spell_group]
    simp
  · refine Context.evaluate_plug tokens terms ?_ c
    rw [evaluate]

/-- Brackets around the product in `-a*b-c`. -/
theorem ofSkeleton_plug_group_product :
    let tokens : List Token := [⟨"a", 0, 1, .ordinary⟩, ⟨"b", 1, 3, .ordinary⟩,
      ⟨"c", 2, 5, .ordinary⟩]
    let product := binary .mul (unary .minus (operand 0)) (operand 1)
    ofSkeleton ⟨[⟨'(', 0⟩, ⟨'-', 1⟩, ⟨'□', 2⟩, ⟨'*', 3⟩, ⟨'□', 4⟩, ⟨')', 5⟩, ⟨'-', 6⟩, ⟨'□', 7⟩],
        8⟩ tokens = .ok (binary .sub (group product) (operand 2)) ∧
      ∀ terms, (binary .sub (group product) (operand 2)).evaluate tokens terms =
        (binary .sub product (operand 2)).evaluate tokens terms := by
  intro tokens product
  have read : ofSkeleton
      ⟨[⟨'-', 0⟩, ⟨'□', 1⟩, ⟨'*', 2⟩, ⟨'□', 3⟩, ⟨'-', 4⟩, ⟨'□', 5⟩], 6⟩ tokens =
        .ok ((Context.left .sub .hole (operand 2)).plug product) := by rfl
  have limits : ∀ p, p <+: ['(', '-', '□', '*', '□', ')', '-', '□'] →
      p.count '(' ≤ p.count ')' + 200 := by
    intro p hp
    have := hp.sublist.count_le '('
    exact Nat.le_trans this (Nat.le_trans (by decide) (Nat.le_add_left _ _))
  obtain ⟨hread, -, hvalue⟩ := (ofSkeleton_plug_group read).2
    ⟨[⟨'(', 0⟩, ⟨'-', 1⟩, ⟨'□', 2⟩, ⟨'*', 3⟩, ⟨'□', 4⟩, ⟨')', 5⟩, ⟨'-', 6⟩, ⟨'□', 7⟩], 8⟩
    (by rfl) limits (by decide)
  exact ⟨hread, hvalue⟩

end Expr

end Formulary
