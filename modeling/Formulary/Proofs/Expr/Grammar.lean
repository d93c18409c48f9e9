import Formulary.Expr.Basic

/-! # The grammar of expressions

Which trees can be written without ambiguity.  A tree has a level, from sums, which hold together
loosely, to operands, groups and calls, which cannot come apart.  A tree is well formed if every
operand of an operator is as tight as the operator asks for; what is looser must stand in a group.
-/

namespace Formulary

/-- How tightly a tree holds together. -/
inductive Level where
  | sum
  | product
  /-- Powers, and signs before them. -/
  | power
  /-- Operands, groups and calls. -/
  | primary
deriving DecidableEq, Repr

namespace Level

def rank : Level → Nat
  | sum => 0
  | product => 1
  | power => 2
  | primary => 3

instance : LE Level := ⟨fun l m => l.rank ≤ m.rank⟩

theorem le_def {l m : Level} : l ≤ m ↔ l.rank ≤ m.rank := .rfl

instance (l m : Level) : Decidable (l ≤ m) := inferInstanceAs (Decidable (l.rank ≤ m.rank))

theorem le_trans {k l m : Level} (h₁ : k ≤ l) (h₂ : l ≤ m) : k ≤ m := Nat.le_trans h₁ h₂

theorem le_refl (l : Level) : l ≤ l := Nat.le_refl _

@[simp] theorem le_primary (l : Level) : l ≤ primary := by
  cases l <;> decide

@[simp] theorem sum_le (l : Level) : sum ≤ l := Nat.zero_le _

theorem le_antisymm {l m : Level} (h₁ : l ≤ m) (h₂ : m ≤ l) : l = m := by
  rw [le_def] at h₁ h₂
  cases l <;> cases m <;> first | rfl | simp [rank] at h₁ h₂

theorem ne_of_le {l m k : Level} (h : l ≤ m) (hk : ¬l ≤ k) : m ≠ k :=
  fun e => hk (e ▸ h)

/-- The level of the operands of a chain. -/
def next : Level → Level
  | sum => product
  | product => power
  | power | primary => primary

theorem le_next (l : Level) : l ≤ l.next := by
  cases l <;> decide

theorem next_le_of_ne {l m : Level} (h : l ≤ m) (hne : m ≠ l) : l.next ≤ m := by
  revert h hne
  cases l <;> cases m <;> decide

end Level

namespace BinOp

def level : BinOp → Level
  | add | sub => .sum
  | mul | div | floorDiv | mod => .product
  | pow => .power

/-- What the left operand must be.  Sums and products group to the left, powers do not. -/
def leftLevel : BinOp → Level
  | add | sub => .sum
  | mul | div | floorDiv | mod => .product
  | pow => .primary

/-- What the right operand must be. -/
def rightLevel : BinOp → Level
  | add | sub => .product
  | mul | div | floorDiv | mod | pow => .power

theorem level_le_leftLevel (op : BinOp) : op.level ≤ op.leftLevel := by
  cases op <;> decide

/-- Only the operators of a chain take an operand of their own level. -/
theorem not_leftLevel_le {op : BinOp} {l : Level} (h : l ≤ op.level) (hne : op.level ≠ l) :
    ¬op.leftLevel ≤ l :=
  fun hl => hne (Level.le_antisymm (Level.le_trans op.level_le_leftLevel hl) h)

theorem next_le_rightLevel (op : BinOp) (h : op.level ≠ .power) :
    op.level.next ≤ op.rightLevel := by
  revert h
  cases op <;> decide

theorem product_le_rightLevel (op : BinOp) : .product ≤ op.rightLevel := by
  cases op <;> decide

theorem eq_pow {op : BinOp} (h : .power ≤ op.level) : op = .pow := by
  revert h
  cases op <;> decide

theorem power_le_rightLevel {op : BinOp} (h : .product ≤ op.level) : .power ≤ op.rightLevel := by
  revert h
  cases op <;> decide

end BinOp

namespace Expr

/-- Induction over trees; the arguments of a call are trees that the claim holds for. -/
@[elab_as_elim, induction_eliminator]
theorem induction {motive : Expr → Prop} (operand : ∀ i, motive (operand i))
    (group : ∀ x, motive x → motive (group x)) (unary : ∀ s x, motive x → motive (unary s x))
    (binary : ∀ op a b, motive a → motive b → motive (binary op a b))
    (call : ∀ f args, (∀ a ∈ args, motive a) → motive (call f args)) (e : Expr) : motive e :=
  @Expr.rec motive (fun args => ∀ a ∈ args, motive a) operand group unary binary call (by simp)
    (fun _ _ he hes => List.forall_mem_cons.2 ⟨he, hes⟩) e

def level : Expr → Level
  | operand _ | group _ | call _ _ => .primary
  | unary _ _ => .power
  | binary op _ _ => op.level

theorem not_primary_unary (s : Sign) (x : Expr) : ¬.primary ≤ (unary s x).level := by
  show ¬Level.primary ≤ .power
  decide

theorem not_primary_binary (op : BinOp) (a b : Expr) : ¬.primary ≤ (binary op a b).level := by
  show ¬.primary ≤ op.level
  cases op <;> decide

mutual

/-- Is the tree one that the grammar derives? -/
def WellFormed : Expr → Prop
  | operand _ => True
  | group x => x.WellFormed
  | unary _ x => x.WellFormed ∧ .power ≤ x.level
  | binary op a b =>
    (a.WellFormed ∧ op.leftLevel ≤ a.level) ∧ b.WellFormed ∧ op.rightLevel ≤ b.level
  | call _ args => args ≠ [] ∧ WellFormedArgs args

def WellFormedArgs : List Expr → Prop
  | [] => True
  | e :: es => e.WellFormed ∧ WellFormedArgs es

end

theorem wellFormedArgs_iff {args : List Expr} :
    WellFormedArgs args ↔ ∀ a ∈ args, a.WellFormed := by
  induction args with
  | nil => simp [WellFormedArgs]
  | cons a args ih => simp [WellFormedArgs, ih]

mutual

/-- How deep the brackets of the tree are nested, those of groups and of calls. -/
def nesting : Expr → Nat
  | operand _ => 0
  | group x => x.nesting + 1
  | unary _ x => x.nesting
  | binary _ a b => max a.nesting b.nesting
  | call _ args => nestingArgs args + 1

def nestingArgs : List Expr → Nat
  | [] => 0
  | e :: es => max e.nesting (nestingArgs es)

end

theorem nesting_le_nestingArgs {args : List Expr} {a : Expr} (h : a ∈ args) :
    a.nesting ≤ nestingArgs args := by
  induction args with
  | nil => cases h
  | cons b args ih =>
    rcases List.mem_cons.1 h with rfl | h
    · exact Nat.le_max_left _ _
    · exact Nat.le_trans (ih h) (Nat.le_max_right _ _)

theorem height_le_heightList {args : List Expr} {a : Expr} (h : a ∈ args) :
    a.height ≤ heightList args := by
  induction args with
  | nil => cases h
  | cons b args ih =>
    rcases List.mem_cons.1 h with rfl | h
    · exact Nat.le_max_left _ _
    · exact Nat.le_trans (ih h) (Nat.le_max_right _ _)

theorem height_pos (e : Expr) : 0 < e.height := by
  cases e <;> simp [height]

/-! ## Chains

Sums and products are chains: a first operand, and then operators of one level, each with its right
operand.
-/

/-- The first operand of a chain of operators of level `l`. -/
def chainHead (l : Level) : Expr → Expr
  | binary op a b => if op.level = l then chainHead l a else binary op a b
  | e => e

/-- The operators of a chain, each with its right operand. -/
def chainTail (l : Level) : Expr → List (BinOp × Expr)
  | binary op a b => if op.level = l then chainTail l a ++ [(op, b)] else []
  | _ => []

/-- Puts a chain together. -/
def chain (head : Expr) (tail : List (BinOp × Expr)) : Expr :=
  tail.foldl (fun e p => binary p.1 e p.2) head

theorem chain_append (head : Expr) (t₁ t₂ : List (BinOp × Expr)) :
    chain head (t₁ ++ t₂) = chain (chain head t₁) t₂ :=
  List.foldl_append

theorem chainTail_of_level_ne {l : Level} {e : Expr} (h : e.level ≠ l) : chainTail l e = [] := by
  cases e with
  | binary op a b => exact if_neg h
  | operand | group | unary | call => rfl

theorem chain_chainHead_chainTail (l : Level) (e : Expr) :
    chain (chainHead l e) (chainTail l e) = e := by
  induction e with
  | binary op a b iha _ =>
    by_cases h : op.level = l
    · rw [chainHead, chainTail, if_pos h, if_pos h, chain_append, iha]
      rfl
    · rw [chainHead, chainTail, if_neg h, if_neg h]
      rfl
  | operand | group | unary | call => rfl

/-- The operands of a chain, and what they have in common with the tree: they are well formed, of
the next level, and no larger. -/
structure Operand (l : Level) (e x : Expr) : Prop where
  wellFormed : x.WellFormed
  level : l ≤ x.level
  height : x.height ≤ e.height
  nesting : x.nesting ≤ e.nesting

theorem Operand.trans {l : Level} {e x y : Expr} (h : Operand l x y) (hh : x.height ≤ e.height)
    (hn : x.nesting ≤ e.nesting) : Operand l e y :=
  ⟨h.wellFormed, h.level, Nat.le_trans h.height hh, Nat.le_trans h.nesting hn⟩

theorem operand_chain {l : Level} (hpow : l ≠ .power) {e : Expr} (h : e.WellFormed)
    (hl : l ≤ e.level) :
    Operand l.next e (chainHead l e) ∧ ∀ p ∈ chainTail l e, Operand l.next e p.2 := by
  induction e with
  | binary op a b iha _ =>
    by_cases hop : op.level = l
    · obtain ⟨⟨ha, hla⟩, hb, hlb⟩ := h
      rw [chainHead, chainTail, if_pos hop, if_pos hop]
      have left : a.height ≤ (binary op a b).height ∧ a.nesting ≤ (binary op a b).nesting := by
        simp only [height, nesting]
        omega
      have right : Operand l.next (binary op a b) b := by
        refine ⟨hb, Level.le_trans ?_ hlb, ?_, ?_⟩
        · rw [← hop]
          exact op.next_le_rightLevel (hop ▸ hpow)
        · simp only [height]
          omega
        · simp only [nesting]
          omega
      obtain ⟨hhead, htail⟩ :=
        iha ha (Level.le_trans (hop ▸ op.level_le_leftLevel) hla)
      refine ⟨hhead.trans left.1 left.2, ?_⟩
      intro p hp
      rcases List.mem_append.1 hp with hp | hp
      · exact (htail p hp).trans left.1 left.2
      · rw [List.mem_singleton.1 hp]
        exact right
    · rw [chainHead, chainTail, if_neg hop, if_neg hop]
      exact ⟨⟨h, Level.next_le_of_ne hl hop, Nat.le_refl _, Nat.le_refl _⟩, by simp⟩
  | unary s x _ =>
    exact ⟨⟨h, Level.next_le_of_ne hl hpow.symm, Nat.le_refl _, Nat.le_refl _⟩, by
      simp [chainTail]⟩
  | operand | group | call =>
    exact ⟨⟨h, Level.le_primary _, Nat.le_refl _, Nat.le_refl _⟩, by simp [chainTail]⟩

theorem height_le_chain (head : Expr) (tail : List (BinOp × Expr)) :
    head.height ≤ (chain head tail).height := by
  induction tail generalizing head with
  | nil => exact Nat.le_refl _
  | cons p tail ih =>
    refine Nat.le_trans ?_ (ih (binary p.1 head p.2))
    simp only [height]
    omega

/-! ## Powers

A power is a sequence of factors, each an operand, group or call with its signs; all that follows a
factor is its exponent.
-/

/-- An operand, group or call, and the signs before it. -/
structure Factor where
  signs : List Sign
  base : Expr

/-- The first factor of a power. -/
def firstFactor : Expr → Factor
  | unary s x => ⟨s :: x.firstFactor.signs, x.firstFactor.base⟩
  | binary .pow a _ => ⟨[], a⟩
  | e => ⟨[], e⟩

/-- The factors of the exponents. -/
def exponents : Expr → List Factor
  | unary _ x => x.exponents
  | binary .pow _ b => b.firstFactor :: b.exponents
  | _ => []

/-- Signs before an expression. -/
def signed (signs : List Sign) (e : Expr) : Expr :=
  signs.foldr unary e

/-- Puts a power together. -/
def powers : Factor → List Factor → Expr
  | f, [] => signed f.signs f.base
  | f, g :: gs => signed f.signs (binary .pow f.base (powers g gs))

theorem powers_cons_sign (s : Sign) (f : Factor) (gs : List Factor) :
    powers ⟨s :: f.signs, f.base⟩ gs = unary s (powers f gs) := by
  cases gs <;> rfl

theorem operand_powers {e : Expr} (h : e.WellFormed) (hl : .power ≤ e.level) :
    Operand .primary e e.firstFactor.base ∧ ∀ f ∈ e.exponents, Operand .primary e f.base := by
  induction e with
  | unary s x ih =>
    have smaller : x.height ≤ (unary s x).height ∧ x.nesting ≤ (unary s x).nesting := by
      simp only [height, nesting]
      omega
    obtain ⟨hfirst, hrest⟩ := ih h.1 h.2
    exact ⟨hfirst.trans smaller.1 smaller.2, fun f hf => (hrest f hf).trans smaller.1 smaller.2⟩
  | binary op a b _ ihb =>
    obtain rfl := BinOp.eq_pow hl
    obtain ⟨⟨ha, hla⟩, hb, hlb⟩ := h
    have smaller : b.height ≤ (binary .pow a b).height ∧
        b.nesting ≤ (binary .pow a b).nesting := by
      simp only [height, nesting]
      omega
    obtain ⟨hfirst, hrest⟩ := ihb hb hlb
    refine ⟨⟨ha, hla, ?_, ?_⟩, List.forall_mem_cons.2 ⟨hfirst.trans smaller.1 smaller.2,
      fun f hf => (hrest f hf).trans smaller.1 smaller.2⟩⟩
    · simp only [firstFactor, height]
      omega
    · simp only [firstFactor, nesting]
      omega
  | operand | group | call =>
    exact ⟨⟨h, Level.le_refl _, Nat.le_refl _, Nat.le_refl _⟩, by simp [exponents]⟩

theorem height_le_signed (signs : List Sign) (e : Expr) : e.height ≤ (signed signs e).height := by
  induction signs with
  | nil => exact Nat.le_refl _
  | cons s signs ih => exact Nat.le_trans ih (Nat.le_succ _)

theorem powers_firstFactor_exponents (e : Expr) : powers e.firstFactor e.exponents = e := by
  induction e with
  | unary s x ih => rw [firstFactor, exponents, powers_cons_sign, ih]
  | binary op a b _ ihb =>
    cases op with
    | pow => simp only [firstFactor, exponents, powers, ihb, signed, List.foldr_nil]
    | add | sub | mul | div | floorDiv | mod => rfl
  | operand | group | call => rfl

end Expr

end Formulary
