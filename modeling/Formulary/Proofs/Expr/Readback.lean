import Formulary.Proofs.Expr.Backward

/-! # Reading drawings back

Two trees that are drawn alike are the same up to brackets that are not drawn.  The drawings are
compared from their ends.  At each step two trees of one level are found there, both with something
to their left that does not go on with a tree of this level; so they end at the same place.
-/

namespace Formulary

open Glyph (plain)

/-! ## What stands to the left -/

/-- The loosest level of a tree that may stand behind a drawing, given from right to left, and not
go on in it. -/
def leftLevel? : List Glyph → Option Level
  | [] => some .sum
  | g :: gs =>
    if g.token.isSome then none
    else if g.char = '(' ∨ g.char = '\x7b' ∨ g.char = '|' then some .sum
    else if g.char = '+' ∨ g.char = '-' then some .primary
    else if g.char = ' ' then
      match gs.head?.map (·.char) with
      | some ',' => some .sum
      | some '+' | some '-' => some .product
      | some 't' | some 'd' => some .power
      | _ => none
    else none

/-- Does a tree of level `l` not go on to the left? -/
def Left (l : Level) (r : List Glyph) : Prop :=
  ∃ m, leftLevel? r = some m ∧ m ≤ l

theorem Left.mono {l m : Level} {r : List Glyph} (h : Left l r) (hlm : l ≤ m) : Left m r := by
  obtain ⟨k, hk, hkl⟩ := h
  exact ⟨k, hk, Level.le_trans hkl hlm⟩

/-- Does a drawing, given from right to left, end with the opening of a bracket? -/
def Opening (r : List Glyph) : Prop :=
  ∃ c gs, r = plain c :: gs ∧ (c = '(' ∨ c = '\x7b' ∨ c = '|')

theorem Opening.left {r : List Glyph} (h : Opening r) (l : Level) : Left l r := by
  obtain ⟨c, gs, rfl, hc⟩ := h
  refine ⟨.sum, ?_, Level.sum_le l⟩
  rcases hc with rfl | rfl | rfl <;> rfl

theorem left_comma (l : Level) (r : List Glyph) : Left l (backText ", ".toList ++ r) :=
  ⟨.sum, rfl, Level.sum_le l⟩

theorem leftLevel?_joint {op : BinOp} (hop : op.IsJoint) (r : List Glyph) :
    leftLevel? (backText (Expr.joint .standard op) ++ r) = some op.level.next := by
  rcases hop with rfl | rfl | rfl | rfl <;> rfl

theorem leftLevel?_sign (s : Sign) (r : List Glyph) :
    leftLevel? (plain s.symbol :: r) = some .primary := by
  cases s <;> rfl

theorem leftLevel?_token (g : Glyph) (hg : g.token.isSome = true) (r : List Glyph) :
    leftLevel? (g :: r) = none := by
  rw [leftLevel?, if_pos hg]

namespace Expr

/-! ## Levels of drawings -/

/-- How tightly a drawing holds together.  Fractions and powers cannot come apart. -/
def drawnLevel : Expr → Level
  | binary op _ _ =>
    match op with
    | .add | .sub => .sum
    | .mul | .mod => .product
    | .div | .floorDiv | .pow => .primary
  | unary _ _ => .power
  | operand _ | group _ | call _ _ => .primary

theorem level_le_drawnLevel (e : Expr) : e.level ≤ e.drawnLevel := by
  cases e with
  | binary op a b => cases op <;> first | exact Level.le_refl _ | exact Level.le_primary _
  | operand | group | unary | call => exact Level.le_refl _

/-- A drawing that is not of the tightest levels is a chain. -/
theorem exists_joint {e : Expr} (h : e.drawnLevel = .sum ∨ e.drawnLevel = .product) :
    ∃ op a b, e = binary op a b ∧ op.IsJoint ∧ op.level = e.drawnLevel := by
  cases e with
  | binary op a b =>
    refine ⟨op, a, b, rfl, ?_⟩
    cases op <;> simp [drawnLevel, BinOp.IsJoint, BinOp.level] at h ⊢
  | operand | group | unary | call => simp [drawnLevel] at h

end Expr

/-! ## Comparison -/

variable (h₁ h₂ : Hand)

open Formulary.Expr

/-- Trees of level `l` that are together at most `n` tall: do they end at the same place, and are
they the same up to brackets that are not drawn? -/
def Faithful (l : Level) (n : Nat) : Prop :=
  ∀ e₁ e₂ : Expr, e₁.WellFormed → e₂.WellFormed → e₁.height + e₂.height ≤ n →
    l ≤ e₁.drawnLevel → l ≤ e₂.drawnLevel → ∀ r₁ r₂, Left l r₁ → Left l r₂ →
      h₁.back e₁ ++ r₁ = h₂.back e₂ ++ r₂ → r₁ = r₂ ∧ e₁.trim = e₂.trim

variable {h₁ h₂} {n : Nat}

/-! ## Chains -/

/-- The character that tells the operators apart, from the right. -/
def jointMark : BinOp → Char
  | .add => '+'
  | .sub => '-'
  | .mul => 't'
  | .mod => 'd'
  | .div | .floorDiv | .pow => ' '

theorem backText_joint_inj {op₁ op₂ : BinOp} (hop₁ : op₁.IsJoint) (hop₂ : op₂.IsJoint)
    {r₁ r₂ : List Glyph}
    (h : backText (joint .standard op₁) ++ r₁ = backText (joint .standard op₂) ++ r₂) :
    op₁ = op₂ ∧ r₁ = r₂ := by
  have second : ∀ {op r}, BinOp.IsJoint op →
      (backText (joint .standard op) ++ r)[1]?.map (·.char) = some (jointMark op) := by
    rintro op r (rfl | rfl | rfl | rfl) <;> rfl
  have marks : jointMark op₁ = jointMark op₂ := by
    rw [← Option.some.injEq, ← second hop₁, ← second hop₂, h]
  have same : op₁ = op₂ := by
    rcases hop₁ with rfl | rfl | rfl | rfl <;> rcases hop₂ with rfl | rfl | rfl | rfl <;>
      first | rfl | simp [jointMark] at marks
  subst same
  exact ⟨rfl, List.append_cancel_left h⟩

/-- A chain of level `l` is compared by its last operands, which are of the next level. -/
theorem Faithful.chain {l : Level} (hl : l = .sum ∨ l = .product) (hn : Faithful h₁ h₂ l n)
    (hnext : Faithful h₁ h₂ l.next (n + 1)) : Faithful h₁ h₂ l (n + 1) := by
  have right : ∀ {op a b}, (binary op a b).WellFormed → op.level = l → l.next ≤ b.drawnLevel := by
    rintro op a b ⟨-, -, hb⟩ rfl
    refine Level.le_trans (op.next_le_rightLevel ?_) (Level.le_trans hb (level_le_drawnLevel b))
    rcases hl with h | h <;> simp [h]
  have stops : ∀ {r}, Left l r → Left l.next r := fun h => h.mono (Level.le_next l)
  have goesOn : ∀ {op r r'}, BinOp.IsJoint op → op.level = l → Left l r →
      backText (joint .standard op) ++ r' = r → False := by
    rintro op r r' hop rfl ⟨m, hm, hle⟩ rfl
    obtain rfl : op.level.next = m := by simpa [leftLevel?_joint hop] using hm
    rcases hl with h | h <;> rw [h] at hle <;> exact absurd hle (by decide)
  have reach : ∀ {op} (r), BinOp.IsJoint op → op.level = l →
      Left l.next (backText (joint .standard op) ++ r) := by
    rintro op r hop rfl
    exact ⟨_, leftLevel?_joint hop r, Level.le_refl _⟩
  intro e₁ e₂ hwf₁ hwf₂ hheight hl₁ hl₂ r₁ r₂ hr₁ hr₂ h
  by_cases hd₁ : e₁.drawnLevel = l
  · obtain ⟨op₁, a₁, b₁, rfl, hop₁, hlevel₁⟩ := exists_joint (hd₁ ▸ hl)
    rw [hd₁] at hlevel₁
    rw [Hand.back_joint _ hop₁, List.append_assoc, List.append_assoc] at h
    simp only [height] at hheight
    by_cases hd₂ : e₂.drawnLevel = l
    · obtain ⟨op₂, a₂, b₂, rfl, hop₂, hlevel₂⟩ := exists_joint (hd₂ ▸ hl)
      rw [hd₂] at hlevel₂
      rw [Hand.back_joint _ hop₂, List.append_assoc, List.append_assoc] at h
      simp only [height] at hheight
      obtain ⟨hctx, hb⟩ := hnext b₁ b₂ hwf₁.2.1 hwf₂.2.1 (by omega) (right hwf₁ hlevel₁)
        (right hwf₂ hlevel₂) _ _ (reach _ hop₁ hlevel₁) (reach _ hop₂ hlevel₂) h
      obtain ⟨rfl, hrest⟩ := backText_joint_inj hop₁ hop₂ hctx
      have left : ∀ {a b}, (binary op₁ a b).WellFormed → l ≤ a.drawnLevel := by
        rintro a b ⟨⟨-, ha⟩, -⟩
        rw [← hlevel₁]
        exact Level.le_trans op₁.level_le_leftLevel (Level.le_trans ha (level_le_drawnLevel a))
      obtain ⟨rfl, ha⟩ := hn a₁ a₂ hwf₁.1.1 hwf₂.1.1 (by omega) (left hwf₁) (left hwf₂) _ _ hr₁ hr₂
        hrest
      refine ⟨rfl, ?_⟩
      rcases hop₁ with rfl | rfl | rfl | rfl <;> simp only [trim, ha, hb]
    · obtain ⟨hctx, -⟩ := hnext b₁ e₂ hwf₁.2.1 hwf₂ (by omega) (right hwf₁ hlevel₁)
        (Level.next_le_of_ne hl₂ hd₂) _ _ (reach _ hop₁ hlevel₁) (stops hr₂) h
      exact (goesOn hop₁ hlevel₁ hr₂ hctx).elim
  · by_cases hd₂ : e₂.drawnLevel = l
    · obtain ⟨op₂, a₂, b₂, rfl, hop₂, hlevel₂⟩ := exists_joint (hd₂ ▸ hl)
      rw [hd₂] at hlevel₂
      rw [Hand.back_joint _ hop₂, List.append_assoc, List.append_assoc] at h
      simp only [height] at hheight
      obtain ⟨hctx, -⟩ := hnext e₁ b₂ hwf₁ hwf₂.2.1 (by omega) (Level.next_le_of_ne hl₁ hd₁)
        (right hwf₂ hlevel₂) _ _ (stops hr₁) (reach _ hop₂ hlevel₂) h
      exact (goesOn hop₂ hlevel₂ hr₁ hctx.symm).elim
    · exact hnext e₁ e₂ hwf₁ hwf₂ hheight (Level.next_le_of_ne hl₁ hd₁)
        (Level.next_le_of_ne hl₂ hd₂) _ _ (stops hr₁) (stops hr₂) h

/-! ## Signs -/

namespace Expr

/-- The signs before a tree. -/
def signs : Expr → List Sign
  | unary s x => s :: x.signs
  | _ => []

/-- A tree without the signs before it. -/
def unsigned : Expr → Expr
  | unary _ x => x.unsigned
  | e => e

theorem signed_signs_unsigned (e : Expr) : signed e.signs e.unsigned = e := by
  induction e with
  | unary s x ih => exact congrArg (unary s) ih
  | operand | group | binary | call => rfl

theorem unsigned_spec {e : Expr} (h : e.WellFormed) (hl : .power ≤ e.drawnLevel) :
    e.unsigned.WellFormed ∧ .primary ≤ e.unsigned.drawnLevel ∧ e.unsigned.height ≤ e.height := by
  induction e with
  | unary s x ih =>
    obtain ⟨hwf, hlevel, hheight⟩ := ih h.1 (Level.le_trans h.2 (level_le_drawnLevel x))
    exact ⟨hwf, hlevel, Nat.le_trans hheight (Nat.le_succ _)⟩
  | binary op a b =>
    refine ⟨h, ?_, Nat.le_refl _⟩
    have loose : ∀ l, l = .sum ∨ l = .product → (binary op a b).drawnLevel = l →
        .primary ≤ (binary op a b).drawnLevel := by
      rintro l (rfl | rfl) e <;> rw [e] at hl <;> exact absurd hl (by decide)
    cases op with
    | add | sub => exact loose _ (.inl rfl) rfl
    | mul | mod => exact loose _ (.inr rfl) rfl
    | div | floorDiv | pow => exact Level.le_refl _
  | operand | group | call => exact ⟨h, Level.le_refl _, Nat.le_refl _⟩

theorem trim_signed (ss : List Sign) (e : Expr) : (signed ss e).trim = signed ss e.trim := by
  induction ss with
  | nil => rfl
  | cons s ss ih => exact congrArg (unary s) ih

end Expr

theorem Hand.back_signed (h : Hand) (ss : List Sign) (e : Expr) :
    h.back (signed ss e) = h.back e ++ ss.reverse.map fun s => plain s.symbol := by
  induction ss with
  | nil => simp [signed]
  | cons s ss ih =>
    show h.back (unary s (signed ss e)) = _
    rw [back_unary, ih, List.reverse_cons, List.map_append, List.append_assoc]
    rfl

theorem signs_inj {ss₁ ss₂ : List Sign} {r₁ r₂ : List Glyph} (hr₁ : Left .power r₁)
    (hr₂ : Left .power r₂) (h : (ss₁.map fun s => plain s.symbol) ++ r₁ =
      (ss₂.map fun s => plain s.symbol) ++ r₂) : ss₁ = ss₂ ∧ r₁ = r₂ := by
  have noSign : ∀ {s : Sign} {r}, ¬Left .power (plain s.symbol :: r) := by
    rintro s r ⟨m, hm, hle⟩
    obtain rfl : .primary = m := by simpa [leftLevel?_sign] using hm
    exact absurd hle (by decide)
  induction ss₁ generalizing ss₂ with
  | nil =>
    cases ss₂ with
    | nil => exact ⟨rfl, h⟩
    | cons s ss₂ =>
      obtain rfl : r₁ = _ := h
      exact absurd hr₁ noSign
  | cons s ss₁ ih =>
    cases ss₂ with
    | nil =>
      obtain rfl : _ = r₂ := h
      exact absurd hr₂ noSign
    | cons t ss₂ =>
      obtain ⟨hst, hrest⟩ := List.cons.inj h
      obtain ⟨rfl, hr⟩ := ih hrest
      have same : s = t := by
        have : s.symbol = t.symbol := congrArg Glyph.char hst
        cases s <;> cases t <;> first | rfl | simp [Sign.symbol] at this
      exact ⟨by rw [same], hr⟩

theorem Faithful.power (h : Faithful h₁ h₂ .primary n) : Faithful h₁ h₂ .power n := by
  intro e₁ e₂ hwf₁ hwf₂ hheight hl₁ hl₂ r₁ r₂ hr₁ hr₂ heq
  have reach : ∀ {r} (ss : List Sign), Left .power r →
      Left .primary ((ss.map fun s => plain s.symbol) ++ r) := by
    rintro r ss hr
    cases ss with
    | nil => exact hr.mono (Level.le_primary _)
    | cons s ss => exact ⟨_, leftLevel?_sign s _, Level.le_refl _⟩
  obtain ⟨hwf₁', hl₁', hle₁⟩ := unsigned_spec hwf₁ hl₁
  obtain ⟨hwf₂', hl₂', hle₂⟩ := unsigned_spec hwf₂ hl₂
  rw [← signed_signs_unsigned e₁, ← signed_signs_unsigned e₂, Hand.back_signed, Hand.back_signed,
    List.append_assoc, List.append_assoc] at heq
  obtain ⟨hctx, htrim⟩ :=
    h _ _ hwf₁' hwf₂' (by omega) hl₁' hl₂' _ _ (reach _ hr₁) (reach _ hr₂) heq
  obtain ⟨hsigns, rfl⟩ := signs_inj hr₁ hr₂ hctx
  refine ⟨rfl, ?_⟩
  rw [← signed_signs_unsigned e₁, ← signed_signs_unsigned e₂, trim_signed, trim_signed, htrim,
    List.reverse_inj.1 hsigns]

/-! ## Items in brackets -/

/-- What stands to the left of an item, when the items `xs` come before it in brackets. -/
def Hand.before (h : Hand) (xs : List Expr) (o : List Glyph) : List Glyph :=
  if xs.isEmpty then o else backText ", ".toList ++ (h.backItems xs ++ o)

theorem Hand.backItems_cons (h : Hand) (x : Expr) (xs : List Expr) (o : List Glyph) :
    h.backItems (x :: xs) ++ o = h.back x ++ h.before xs o := by
  cases xs with
  | nil => simp [backItems, before]
  | cons y ys => simp [backItems, before]

theorem Hand.left_before (h : Hand) {xs : List Expr} {o : List Glyph} (ho : Opening o) :
    Left .sum (h.before xs o) := by
  cases xs with
  | nil => exact ho.left _
  | cons x xs => exact left_comma _ _

/-- No opening of a bracket is a comma. -/
theorem Opening.ne_comma {o r : List Glyph} (ho : Opening o) : o ≠ backText ", ".toList ++ r := by
  rintro rfl
  obtain ⟨c, gs, h, hc⟩ := ho
  have : ' ' = c := congrArg Glyph.char (List.cons.inj h).1
  subst this
  simp at hc

theorem backItems_inj (hn : Faithful h₁ h₂ .sum n) {xs₁ xs₂ : List Expr} (hne₁ : xs₁ ≠ [])
    (hne₂ : xs₂ ≠ []) (hwf₁ : ∀ x ∈ xs₁, x.WellFormed) (hwf₂ : ∀ x ∈ xs₂, x.WellFormed)
    (hheight : ∀ x ∈ xs₁, ∀ y ∈ xs₂, x.height + y.height ≤ n) {o₁ o₂ : List Glyph}
    (ho₁ : Opening o₁) (ho₂ : Opening o₂)
    (h : h₁.backItems xs₁ ++ o₁ = h₂.backItems xs₂ ++ o₂) :
    o₁ = o₂ ∧ xs₁.map trim = xs₂.map trim := by
  induction xs₁ generalizing xs₂ with
  | nil => exact absurd rfl hne₁
  | cons x xs₁ ih =>
    obtain ⟨y, xs₂, rfl⟩ := List.exists_cons_of_ne_nil hne₂
    obtain ⟨hx, hwf₁⟩ := List.forall_mem_cons.1 hwf₁
    obtain ⟨hy, hwf₂⟩ := List.forall_mem_cons.1 hwf₂
    rw [Hand.backItems_cons, Hand.backItems_cons] at h
    obtain ⟨hctx, htrim⟩ := hn x y hx hy (hheight x (by simp) y (by simp)) (Level.sum_le _)
      (Level.sum_le _) _ _ (h₁.left_before ho₁) (h₂.left_before ho₂) h
    cases xs₁ with
    | nil =>
      cases xs₂ with
      | nil => exact ⟨hctx, congrArg (· :: []) htrim⟩
      | cons z zs => exact absurd hctx ho₁.ne_comma
    | cons w ws =>
      cases xs₂ with
      | nil => exact absurd hctx.symm ho₂.ne_comma
      | cons z zs =>
        obtain ⟨ho, htrims⟩ := ih (by simp) (by simp) hwf₁ hwf₂
          (fun x hx y hy => hheight x (List.mem_cons_of_mem _ hx) y (List.mem_cons_of_mem _ hy))
          (List.append_cancel_left hctx)
        refine ⟨ho, ?_⟩
        rw [List.map_cons, htrims, htrim]
        rfl

/-! ## Brackets -/

namespace Expr

/-- Trees whose drawing ends with a bracket. -/
inductive Bracketed : Expr → Prop
  | group (x : Expr) : Bracketed (group x)
  | pow (a b : Expr) : Bracketed (binary .pow a b)
  | div (a b : Expr) : Bracketed (binary .div a b)
  | floorDiv (a b : Expr) : Bracketed (binary .floorDiv a b)
  | call (f : Nat) (args : List Expr) : Bracketed (call f args)

/-- What cannot come apart is drawn as an operand or with a bracket. -/
theorem operand_or_bracketed {e : Expr} (h : .primary ≤ e.drawnLevel) :
    (∃ i, e = operand i) ∨ Bracketed e := by
  cases e with
  | operand i => exact .inl ⟨i, rfl⟩
  | group x => exact .inr (.group x)
  | call f args => exact .inr (.call f args)
  | unary s x => exact absurd h (by show ¬Level.primary ≤ .power; decide)
  | binary op a b =>
    cases op with
    | pow => exact .inr (.pow a b)
    | div => exact .inr (.div a b)
    | floorDiv => exact .inr (.floorDiv a b)
    | add | sub => exact absurd h (by show ¬Level.primary ≤ .sum; decide)
    | mul | mod => exact absurd h (by show ¬Level.primary ≤ .product; decide)

/-- The trees in the last bracket of a drawing, the last one first. -/
def lastItems : Expr → List Expr
  | group x => [x]
  | binary _ _ b => [b.strip]
  | call _ args => (args.map strip).reverse
  | _ => []

end Expr

namespace Hand

variable (h : Hand)

/-- The end of the last bracket of a drawing. -/
def closer : Expr → List Char
  | binary .floorDiv _ _ => '\x7d' :: " \\right\\rfloor".toList
  | binary _ _ _ => ['\x7d']
  | call f _ => (h.style f).closing
  | _ => [')']

/-- What stands before the items in the last bracket, from right to left. -/
def front : Expr → List Glyph
  | binary .pow a _ => backText "^\x7b".toList ++ h.back a
  | binary .floorDiv a _ =>
    backText "\x7d\x7b".toList ++ (h.back a.strip ++ (backText "\\frac\x7b".toList ++
      backText "\\left\\lfloor ".toList))
  | binary _ a _ =>
    backText "\x7d\x7b".toList ++ (h.back a.strip ++ backText "\\frac\x7b".toList)
  | call f _ => backText (h.style f).opening ++ [h.token f]
  | _ => backText ['(']

theorem back_bracketed {e : Expr} (he : e.Bracketed) :
    h.back e = backText (h.closer e) ++ (h.backItems e.lastItems ++ h.front e) := by
  cases he with
  | group x => simp [back_group, closer, lastItems, front, backItems]
  | pow a b => simp [back_pow, closer, lastItems, front, backItems]
  | div a b => simp [back_div, closer, lastItems, front, backItems]
  | floorDiv a b =>
    rw [back_floorDiv, back_div]
    simp [closer, lastItems, front, backItems, backText]
  | call f args => rw [back_call, closer, lastItems, front]

theorem opening_front (e : Expr) (r : List Glyph) : Opening (h.front e ++ r) := by
  cases e with
  | binary op a b =>
    cases op <;> exact ⟨'\x7b', _, rfl, .inr (.inl rfl)⟩
  | call f args =>
    rw [front]
    cases h.style f with
    | parenthesized => exact ⟨'(', _, rfl, .inl rfl⟩
    | radical => exact ⟨'\x7b', _, rfl, .inr (.inl rfl)⟩
    | bars => exact ⟨'|', _, rfl, .inr (.inr rfl)⟩
  | operand | group | unary => exact ⟨'(', _, rfl, .inl rfl⟩

end Hand

theorem head?_backText (cs : List Char) {c : Char} (h : cs.getLast? = some c) (r : List Glyph) :
    (backText cs ++ r).head? = some (plain c) := by
  obtain ⟨ds, rfl⟩ := List.getLast?_eq_some_iff.1 h
  rw [backText_append]
  rfl

/-- The last character of a drawing that ends with a bracket. -/
def Hand.closerMark (h : Hand) : Expr → Char
  | binary .floorDiv _ _ => 'r'
  | binary _ _ _ => '\x7d'
  | call f _ =>
    match h.style f with
    | .parenthesized => ')'
    | .radical => '\x7d'
    | .bars => '|'
  | _ => ')'

theorem Hand.getLast?_closer (h : Hand) (e : Expr) :
    (h.closer e).getLast? = some (h.closerMark e) := by
  cases e with
  | binary op a b => cases op <;> rfl
  | call f args =>
    rw [closer, closerMark]
    cases h.style f <;> rfl
  | operand | group | unary => rfl

/-- The last character tells what the bracket is closed with. -/
def closerOf (c : Char) : List Char :=
  if c = 'r' then '\x7d' :: " \\right\\rfloor".toList
  else if c = '|' then "\\right|".toList
  else [c]

theorem Hand.closerOf_closerMark (h : Hand) (e : Expr) :
    closerOf (h.closerMark e) = h.closer e := by
  cases e with
  | binary op a b => cases op <;> rfl
  | call f args =>
    rw [closer, closerMark]
    cases h.style f <;> rfl
  | operand | group | unary => rfl

theorem closer_inj {e₁ e₂ : Expr} {r₁ r₂ : List Glyph}
    (h : backText (h₁.closer e₁) ++ r₁ = backText (h₂.closer e₂) ++ r₂) :
    h₁.closerMark e₁ = h₂.closerMark e₂ ∧ r₁ = r₂ := by
  have marks : some (plain (h₁.closerMark e₁)) = some (plain (h₂.closerMark e₂)) := by
    rw [← head?_backText _ (h₁.getLast?_closer e₁) r₁, h,
      head?_backText _ (h₂.getLast?_closer e₂) r₂]
  have same : h₁.closerMark e₁ = h₂.closerMark e₂ :=
    congrArg Glyph.char (Option.some.inj marks)
  rw [← h₁.closerOf_closerMark, ← h₂.closerOf_closerMark, same] at h
  exact ⟨same, List.append_cancel_left h⟩

/-- The kinds of trees whose drawing ends with a bracket. -/
inductive Kind where
  | group
  | pow
  | div
  | floorDiv
  | call
deriving DecidableEq

namespace Kind

def of : Expr → Kind
  | binary .pow _ _ => pow
  | binary .floorDiv _ _ => floorDiv
  | binary _ _ _ => div
  | Expr.call _ _ => call
  | _ => group

/-- The kind of a tree, from the last character of its drawing and the second glyph before the
items of its last bracket. -/
def ofMarks (last : Char) (second : Option Glyph) : Kind :=
  if second.any (·.token.isSome) ∨ last = '|' then call
  else if last = ')' then group
  else if last = 'r' then floorDiv
  else if second.map (·.char) = some '^' then pow
  else div

theorem ofMarks_eq (h : Hand) {e : Expr} (he : e.Bracketed) {r : List Glyph}
    (hr : Left .primary r) : ofMarks (h.closerMark e) (h.front e ++ r)[1]? = of e := by
  cases he with
  | group x =>
    have noToken : r.head?.any (·.token.isSome) = false := by
      cases r with
      | nil => rfl
      | cons g gs =>
        refine Bool.eq_false_iff.2 fun hg => ?_
        obtain ⟨m, hm, -⟩ := hr
        rw [leftLevel?_token g hg] at hm
        cases hm
    have second : (h.front (Expr.group x) ++ r)[1]? = r.head? := by
      rw [List.head?_eq_getElem?]
      rfl
    simp [ofMarks, of, Hand.closerMark, second, noToken]
  | pow a b => rfl
  | div a b => rfl
  | floorDiv a b => rfl
  | call f args =>
    rw [Hand.closerMark, Hand.front]
    cases h.style f <;> rfl

end Kind

/-- What stands in front of a fraction is told apart from its numerator. -/
theorem numerator_inj (hsum : Faithful h₁ h₂ .sum n) {op : BinOp} {a₁ b₁ a₂ b₂ : Expr}
    (hwf₁ : (binary op a₁ b₁).WellFormed) (hwf₂ : (binary op a₂ b₂).WellFormed)
    (hheight : (binary op a₁ b₁).height + (binary op a₂ b₂).height ≤ n + 1) {r₁ r₂ : List Glyph}
    (h : backText "\x7d\x7b".toList ++ (h₁.back a₁.strip ++ (backText "\\frac\x7b".toList ++ r₁)) =
      backText "\x7d\x7b".toList ++ (h₂.back a₂.strip ++ (backText "\\frac\x7b".toList ++ r₂))) :
    r₁ = r₂ ∧ a₁.trim.strip = a₂.trim.strip := by
  have stops : ∀ r, Left .sum (backText "\\frac\x7b".toList ++ r) := fun r =>
    Opening.left ⟨'\x7b', _, rfl, .inr (.inl rfl)⟩ _
  have h₁' := height_strip_le a₁
  have h₂' := height_strip_le a₂
  simp only [height] at hheight
  obtain ⟨hr, htrim⟩ := hsum a₁.strip a₂.strip hwf₁.1.1.strip hwf₂.1.1.strip (by omega)
    (Level.sum_le _) (Level.sum_le _) _ _ (stops r₁) (stops r₂) (List.append_cancel_left h)
  exact ⟨List.append_cancel_left hr, by rw [strip_trim, strip_trim, htrim]⟩

theorem front_inj (hsum : Faithful h₁ h₂ .sum n) (hprimary : Faithful h₁ h₂ .primary n)
    {e₁ e₂ : Expr} (hb₁ : e₁.Bracketed) (hb₂ : e₂.Bracketed) (hwf₁ : e₁.WellFormed)
    (hwf₂ : e₂.WellFormed) (hheight : e₁.height + e₂.height ≤ n + 1)
    (hmarks : h₁.closerMark e₁ = h₂.closerMark e₂)
    (hitems : e₁.lastItems.map trim = e₂.lastItems.map trim) {r₁ r₂ : List Glyph}
    (hr₁ : Left .primary r₁) (hr₂ : Left .primary r₂)
    (h : h₁.front e₁ ++ r₁ = h₂.front e₂ ++ r₂) : r₁ = r₂ ∧ e₁.trim = e₂.trim := by
  have kinds : Kind.of e₁ = Kind.of e₂ := by
    rw [← Kind.ofMarks_eq h₁ hb₁ hr₁, ← Kind.ofMarks_eq h₂ hb₂ hr₂, hmarks, h]
  cases hb₁ with
  | group x =>
    cases hb₂ with
    | group y => exact ⟨List.append_cancel_left h, congrArg Expr.group (List.cons.inj hitems).1⟩
    | pow | div | floorDiv | call => cases kinds
  | pow a₁ b₁ =>
    cases hb₂ with
    | pow a₂ b₂ =>
      rw [Hand.front, Hand.front, List.append_assoc, List.append_assoc] at h
      have tight : ∀ {a b}, (binary .pow a b).WellFormed → .primary ≤ a.drawnLevel := by
        rintro a b ⟨⟨-, ha⟩, -⟩
        exact Level.le_trans ha (level_le_drawnLevel a)
      simp only [height] at hheight
      obtain ⟨hr, ha⟩ := hprimary a₁ a₂ hwf₁.1.1 hwf₂.1.1 (by omega) (tight hwf₁) (tight hwf₂) _ _
        hr₁ hr₂ (List.append_cancel_left h)
      have hb : b₁.strip.trim = b₂.strip.trim := (List.cons.inj hitems).1
      exact ⟨hr, by rw [trim, trim, strip_trim, strip_trim, ha, hb]⟩
    | group | div | floorDiv | call => cases kinds
  | div a₁ b₁ =>
    cases hb₂ with
    | div a₂ b₂ =>
      simp only [Hand.front, List.append_assoc] at h
      obtain ⟨hr, ha⟩ := numerator_inj hsum hwf₁ hwf₂ hheight h
      have hb : b₁.strip.trim = b₂.strip.trim := (List.cons.inj hitems).1
      exact ⟨hr, by rw [trim, trim, ha, strip_trim b₁, strip_trim b₂, hb]⟩
    | group | pow | floorDiv | call => cases kinds
  | floorDiv a₁ b₁ =>
    cases hb₂ with
    | floorDiv a₂ b₂ =>
      simp only [Hand.front, List.append_assoc] at h
      obtain ⟨hr, ha⟩ := numerator_inj hsum hwf₁ hwf₂ hheight h
      have hb : b₁.strip.trim = b₂.strip.trim := (List.cons.inj hitems).1
      exact ⟨List.append_cancel_left hr, by rw [trim, trim, ha, strip_trim b₁, strip_trim b₂, hb]⟩
    | group | pow | div | call => cases kinds
  | call f₁ args₁ =>
    cases hb₂ with
    | call f₂ args₂ =>
      have style : h₁.style f₁ = h₂.style f₂ := by
        rw [Hand.closerMark, Hand.closerMark] at hmarks
        revert hmarks
        cases h₁.style f₁ <;> cases h₂.style f₂ <;> simp
      rw [Hand.front, Hand.front, style, List.append_assoc, List.append_assoc] at h
      obtain ⟨htoken, hr⟩ := List.cons.inj (List.append_cancel_left h)
      obtain rfl : f₁ = f₂ := Option.some.inj (congrArg Glyph.token htoken)
      have hargs : (args₁.map strip).map trim = (args₂.map strip).map trim := by
        rw [lastItems, lastItems, List.map_reverse, List.map_reverse] at hitems
        exact List.reverse_inj.1 hitems
      exact ⟨hr, by rw [trim, trim, trimArgs_eq_map, trimArgs_eq_map, hargs]⟩
    | group | pow | div | floorDiv => cases kinds

theorem lastItems_spec {e : Expr} (he : e.Bracketed) (h : e.WellFormed) :
    e.lastItems ≠ [] ∧ ∀ x ∈ e.lastItems, x.WellFormed ∧ x.height < e.height := by
  have one : ∀ {y : Expr}, y.WellFormed → y.height < e.height →
      ∀ x ∈ [y.strip], x.WellFormed ∧ x.height < e.height := by
    intro y hy hlt x hx
    obtain rfl := List.mem_singleton.1 hx
    exact ⟨hy.strip, Nat.lt_of_le_of_lt (height_strip_le y) hlt⟩
  cases he with
  | group y => exact ⟨by simp [lastItems], by simp [lastItems, height]; exact h⟩
  | pow a b | div a b | floorDiv a b =>
    exact ⟨by simp [lastItems], one h.2.1 (by simp only [height]; omega)⟩
  | call f args =>
    obtain ⟨hne, hargs⟩ := h
    refine ⟨by simpa [lastItems] using hne, ?_⟩
    intro x hx
    obtain ⟨a, ha, rfl⟩ := List.mem_map.1 (List.mem_reverse.1 hx)
    refine ⟨(wellFormedArgs_iff.1 hargs a ha).strip, Nat.lt_succ_of_le ?_⟩
    exact Nat.le_trans (height_strip_le a) (height_le_heightList ha)

/-- What cannot come apart is compared by the items of the last bracket, and then by what stands
before them. -/
theorem Faithful.primary (hsum : Faithful h₁ h₂ .sum n) (hprimary : Faithful h₁ h₂ .primary n) :
    Faithful h₁ h₂ .primary (n + 1) := by
  intro e₁ e₂ hwf₁ hwf₂ hheight hl₁ hl₂ r₁ r₂ hr₁ hr₂ h
  have unlike : ∀ {g h : Hand} {i e r r'}, Bracketed e →
      g.back (operand i) ++ r ≠ h.back e ++ r' := by
    intro g h i e r r' he heq
    rw [h.back_bracketed he, List.append_assoc] at heq
    have : some (g.token i) = some (plain (h.closerMark e)) := by
      rw [← head?_backText _ (h.getLast?_closer e), ← heq]
      rfl
    exact nomatch congrArg (Option.map Glyph.token) this
  rcases operand_or_bracketed hl₁ with ⟨i, rfl⟩ | hb₁
  · rcases operand_or_bracketed hl₂ with ⟨j, rfl⟩ | hb₂
    · obtain ⟨htoken, hr⟩ := List.cons.inj h
      obtain rfl : i = j := Option.some.inj (congrArg Glyph.token htoken)
      exact ⟨hr, rfl⟩
    · exact absurd h (unlike hb₂)
  · rcases operand_or_bracketed hl₂ with ⟨j, rfl⟩ | hb₂
    · exact absurd h.symm (unlike hb₁)
    · rw [h₁.back_bracketed hb₁, h₂.back_bracketed hb₂, List.append_assoc, List.append_assoc,
        List.append_assoc, List.append_assoc] at h
      obtain ⟨hmarks, h⟩ := closer_inj h
      obtain ⟨hne₁, hitems₁⟩ := lastItems_spec hb₁ hwf₁
      obtain ⟨hne₂, hitems₂⟩ := lastItems_spec hb₂ hwf₂
      have low : ∀ x ∈ e₁.lastItems, ∀ y ∈ e₂.lastItems, x.height + y.height ≤ n := by
        intro x hx y hy
        have := (hitems₁ x hx).2
        have := (hitems₂ y hy).2
        omega
      obtain ⟨hfront, hitems⟩ := backItems_inj hsum hne₁ hne₂ (fun x hx => (hitems₁ x hx).1)
        (fun x hx => (hitems₂ x hx).1) low (h₁.opening_front e₁ r₁) (h₂.opening_front e₂ r₂) h
      exact front_inj hsum hprimary hb₁ hb₂ hwf₁ hwf₂ hheight hmarks hitems hr₁ hr₂ hfront

theorem faithful (l : Level) (n : Nat) : Faithful h₁ h₂ l n := by
  induction n generalizing l with
  | zero =>
    intro e₁ e₂ _ _ hheight
    have := height_pos e₁
    omega
  | succ n ih =>
    have hprimary := Faithful.primary (ih .sum) (ih .primary)
    have hproduct := Faithful.chain (.inr rfl) (ih .product) hprimary.power
    cases l with
    | sum => exact Faithful.chain (.inl rfl) (ih .sum) hproduct
    | product => exact hproduct
    | power => exact hprimary.power
    | primary => exact hprimary

/-- Trees that are drawn alike, by whatever hands, are the same up to brackets that are not
drawn. -/
theorem trim_eq_of_draw_eq {e₁ e₂ : Expr} (hwf₁ : e₁.WellFormed) (hwf₂ : e₂.WellFormed)
    (h : h₁.draw e₁ = h₂.draw e₂) : e₁.trim = e₂.trim := by
  have stops : Left .sum [] := ⟨.sum, rfl, Level.le_refl _⟩
  have back : h₁.back e₁ ++ [] = h₂.back e₂ ++ [] := by
    rw [List.append_nil, List.append_nil, Hand.back, Hand.back, h]
  exact (faithful .sum _ e₁ e₂ hwf₁ hwf₂ (Nat.le_refl _) (Level.sum_le _) (Level.sum_le _) _ _ stops
    stops back).2

end Formulary
