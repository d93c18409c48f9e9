import Formulary.Proofs.Expr.Operators

/-! # Where a spelling is cut

Each level of the grammar cuts the spelling of a tree of that level exactly at the operators of its
chain: what the tree is made of comes back as the pieces.
-/

namespace Formulary

open Glyph (plain)

namespace Stretch

/-- Whether an operand stands just before an index depends on what stands before it only. -/
theorem followsOperand_append (xs ys : List Char) :
    followsOperand (xs ++ ys) xs.length = xs.getLast?.any endsOperand := by
  rcases List.eq_nil_or_concat xs with rfl | ⟨zs, c, rfl⟩
  · rfl
  · simp [followsOperand]

def isSumCut (text : List Char) (m : Span) : Bool :=
  (m.op == ['+'] || m.op == ['-']) && followsOperand text m.start

def isProductCut (m : Span) : Bool :=
  m.op == ['*'] || m.op == ['/'] || m.op == ['/', '/'] || m.op == ['%']

theorem isSumCut_symbol (text : List Char) (i : Nat) (op : BinOp) :
    isSumCut text ⟨i, op.symbol⟩ = (op.level == .sum && followsOperand text i) := by
  cases op <;> rfl

theorem isProductCut_symbol (i : Nat) (op : BinOp) :
    isProductCut ⟨i, op.symbol⟩ = (op.level == .product) := by
  cases op <;> rfl

theorem sumCuts_eq (text : List Char) :
    sumCuts text = (operators text).filter (isSumCut text) := rfl

theorem productCuts_eq (text : List Char) :
    productCuts text = (operators text).filter isProductCut := rfl

end Stretch

namespace Expr

variable (place : Nat → Char)

/-- The operators of a chain with the spellings of their right operands. -/
def chainPieces (tail : List (BinOp × Expr)) : List (List Char × List Glyph) :=
  tail.map fun p => (p.1.symbol, p.2.glyphs place)

theorem glyphs_chain (head : Expr) (tail : List (BinOp × Expr)) :
    (chain head tail).glyphs place =
      head.glyphs place ++ (chainPieces place tail).flatMap fun p => p.1.map plain ++ p.2 := by
  induction tail generalizing head with
  | nil => simp [chain, chainPieces]
  | cons p tail ih =>
    have := ih (binary p.1 head p.2)
    simpa [chain, chainPieces, glyphs] using this

theorem glyphs_eq_chain (l : Level) (e : Expr) :
    e.glyphs place = (chainHead l e).glyphs place ++
      (chainPieces place (chainTail l e)).flatMap fun p => p.1.map plain ++ p.2 := by
  rw [← glyphs_chain, chain_chainHead_chainTail]

/-- The spans of the operators of a chain that begins at `i`. -/
def chainSpans (l : Level) (i : Nat) (e : Expr) : List Span :=
  Span.ofPieces i ((chainHead l e).glyphs place) (chainPieces place (chainTail l e))

theorem chainSpans_of_level_ne {l : Level} {e : Expr} (h : e.level ≠ l) (i : Nat) :
    chainSpans place l i e = [] := by
  rw [chainSpans, chainTail_of_level_ne h]
  rfl

theorem chainSpans_binary {l : Level} {op : BinOp} (h : op.level = l) (i : Nat) (a b : Expr) :
    chainSpans place l i (binary op a b) =
      chainSpans place l i a ++ [⟨i + (a.glyphs place).length, op.symbol⟩] := by
  simp only [chainSpans, chainHead, chainTail, if_pos h, chainPieces, List.map_append,
    List.map_cons, List.map_nil]
  rw [Span.ofPieces_append plain, ← chainPieces, ← glyphs_eq_chain]

variable {place}

/-! ## Sums and products -/

section

variable (hp : ∀ i, isPlaceholder (place i) = true)

include hp

/-- The additions and subtractions of a spelling, wherever it stands: no sign is taken for one,
since no operand stands before a sign. -/
theorem filter_isSumCut {e : Expr} (h : e.WellFormed) {text front back : List Char}
    (htext : text = front ++ e.spell place ++ back)
    (hfront : front.getLast?.any Stretch.endsOperand = false) :
    (e.operatorSpans place front.length).filter (Stretch.isSumCut text) =
      chainSpans place .sum front.length e := by
  induction e generalizing front back with
  | operand i => rfl
  | group x _ => rfl
  | call f args _ => rfl
  | unary s x ih =>
    obtain ⟨hx, hlevel⟩ := h
    have sign : Stretch.isSumCut text ⟨front.length, [s.symbol]⟩ = false := by
      rw [htext, List.append_assoc]
      simp only [Stretch.isSumCut, Stretch.followsOperand_append, hfront, Bool.and_false]
    have behind := @ih hx (front ++ [s.symbol]) back (by simp [htext])
      (by cases s <;> simp <;> decide)
    rw [chainSpans_of_level_ne place (Level.ne_of_le hlevel (by decide)), List.length_append,
      List.length_singleton] at behind
    rw [operatorSpans, List.filter_cons, sign, behind,
      chainSpans_of_level_ne place (e := unary s x) (by simp [level])]
    rfl
  | binary op a b iha ihb =>
    obtain ⟨⟨ha, hla⟩, hb, hlb⟩ := h
    have left := @iha ha front (op.symbol ++ b.spell place ++ back) (by simp [htext]) hfront
    have right := @ihb hb (front ++ a.spell place ++ op.symbol) back (by simp [htext])
      (by cases op <;> simp [BinOp.symbol] <;> decide)
    have loose : .product ≤ b.level := Level.le_trans op.product_le_rightLevel hlb
    rw [chainSpans_of_level_ne place (Level.ne_of_le loose (by decide)), List.length_append,
      List.length_append, length_spell] at right
    have follows : Stretch.followsOperand text (front.length + (a.glyphs place).length) = true := by
      obtain ⟨cs, c, hlast, hc⟩ := exists_last_spell hp a
      have split : text = (front ++ a.spell place) ++ (op.symbol ++ b.spell place ++ back) := by
        simp [htext]
      rw [split, ← length_spell, ← List.length_append, Stretch.followsOperand_append, hlast]
      simpa using hc
    rw [operatorSpans, List.filter_append, List.filter_cons, left, right,
      Stretch.isSumCut_symbol, follows]
    by_cases hop : op.level = .sum
    · simp [hop, chainSpans_binary]
    · have tight := Level.ne_of_le hla (BinOp.not_leftLevel_le (Level.sum_le _) hop)
      have none := chainSpans_of_level_ne place (e := binary op a b) hop
      simp [hop, none, chainSpans_of_level_ne place tight]

theorem sumCuts_spell {e : Expr} (h : e.WellFormed) :
    Stretch.sumCuts (e.spell place) = chainSpans place .sum 0 e := by
  rw [Stretch.sumCuts_eq, operators_spell hp]
  exact @filter_isSumCut _ hp _ h _ [] [] (by simp) rfl

omit hp in
theorem filter_isProductCut {e : Expr} (h : e.WellFormed) (hl : .product ≤ e.level) (i : Nat) :
    (e.operatorSpans place i).filter Stretch.isProductCut = chainSpans place .product i e := by
  induction e generalizing i with
  | operand i => rfl
  | group x _ => rfl
  | call f args _ => rfl
  | unary s x ih =>
    obtain ⟨hx, hlevel⟩ := h
    have sign : Stretch.isProductCut ⟨i, [s.symbol]⟩ = false := by cases s <;> rfl
    rw [operatorSpans, List.filter_cons, sign, ih hx (Level.le_trans (by decide) hlevel),
      chainSpans_of_level_ne place (Level.ne_of_le hlevel (by decide)),
      chainSpans_of_level_ne place (e := unary s x) (by simp [level])]
    rfl
  | binary op a b iha ihb =>
    obtain ⟨⟨ha, hla⟩, hb, hlb⟩ := h
    have left : .product ≤ a.level :=
      Level.le_trans (Level.le_trans hl op.level_le_leftLevel) hla
    have right : .power ≤ b.level := Level.le_trans (BinOp.power_le_rightLevel hl) hlb
    rw [operatorSpans, List.filter_append, List.filter_cons, iha ha left,
      ihb hb (Level.le_trans (by decide) right),
      chainSpans_of_level_ne place (Level.ne_of_le right (by decide)),
      Stretch.isProductCut_symbol]
    by_cases hop : op.level = .product
    · simp [hop, chainSpans_binary]
    · have tight := Level.ne_of_le hla (BinOp.not_leftLevel_le hl hop)
      have none := chainSpans_of_level_ne place (e := binary op a b) hop
      simp [hop, none, chainSpans_of_level_ne place tight]

theorem productCuts_spell {e : Expr} (h : e.WellFormed) (hl : .product ≤ e.level) :
    Stretch.productCuts (e.spell place) = chainSpans place .product 0 e := by
  rw [Stretch.productCuts_eq, operators_spell hp]
  exact filter_isProductCut h hl 0

/-! ## Powers -/

omit hp in
theorem operatorSpans_of_primary {e : Expr} (h : .primary ≤ e.level) (i : Nat) :
    e.operatorSpans place i = [] := by
  cases e with
  | operand | group | call => rfl
  | unary s x => exact absurd h (not_primary_unary s x)
  | binary op a b => exact absurd h (not_primary_binary op a b)

variable (place) in
def Factor.glyphs (f : Factor) : List Glyph :=
  (f.signs.map fun s => plain s.symbol) ++ f.base.glyphs place

variable (place) in
/-- The factors of exponents, each behind the operator of a power. -/
def powerPieces (fs : List Factor) : List (List Char × List Glyph) :=
  fs.map fun f => (BinOp.pow.symbol, f.glyphs place)

omit hp in
theorem glyphs_signed (signs : List Sign) (e : Expr) :
    (signed signs e).glyphs place = (signs.map fun s => plain s.symbol) ++ e.glyphs place := by
  induction signs with
  | nil => rfl
  | cons s signs ih => simpa [signed, glyphs] using ih

omit hp in
theorem glyphs_powers (f : Factor) (fs : List Factor) :
    (powers f fs).glyphs place =
      f.glyphs place ++ (powerPieces place fs).flatMap fun p => p.1.map plain ++ p.2 := by
  induction fs generalizing f with
  | nil => simp [powers, glyphs_signed, powerPieces, Factor.glyphs]
  | cons g fs ih =>
    have := ih g
    simp only [powers, glyphs_signed, glyphs, this]
    simp [powerPieces, Factor.glyphs]

omit hp in
theorem glyphs_eq_powers (e : Expr) :
    e.glyphs place = e.firstFactor.glyphs place ++
      (powerPieces place e.exponents).flatMap fun p => p.1.map plain ++ p.2 := by
  rw [← glyphs_powers, powers_firstFactor_exponents]

omit hp in
theorem filter_isPowerCut {e : Expr} (h : e.WellFormed) (hl : .power ≤ e.level) (i : Nat) :
    (e.operatorSpans place i).filter (·.op == ['*', '*']) =
      Span.ofPieces i (e.firstFactor.glyphs place) (powerPieces place e.exponents) := by
  induction e generalizing i with
  | operand j => rfl
  | group x _ => rfl
  | call f args _ => rfl
  | unary s x ih =>
    obtain ⟨hx, hlevel⟩ := h
    have sign : ([s.symbol] == ['*', '*']) = false := by cases s <;> rfl
    rw [operatorSpans, List.filter_cons, sign, ih hx hlevel]
    simp [firstFactor, exponents, Factor.glyphs, Span.ofPieces_cons]
  | binary op a b _ ihb =>
    obtain ⟨⟨_, hla⟩, hb, hlb⟩ := h
    obtain rfl := BinOp.eq_pow hl
    rw [operatorSpans, List.filter_append, operatorSpans_of_primary hla, List.filter_cons,
      ihb hb hlb]
    simp [firstFactor, exponents, Factor.glyphs, powerPieces, Span.ofPieces, BinOp.symbol]

theorem powerCuts_spell {e : Expr} (h : e.WellFormed) (hl : .power ≤ e.level) :
    Stretch.powerCuts (e.spell place) =
      Span.ofPieces 0 (e.firstFactor.glyphs place) (powerPieces place e.exponents) := by
  rw [Stretch.powerCuts, operators_spell hp]
  exact filter_isPowerCut h hl 0

/-! ## Arguments -/

omit hp in
theorem filter_isComma (e : Expr) (i : Nat) :
    (e.operatorSpans place i).filter (·.op == [',']) = [] := by
  induction e generalizing i with
  | operand j => rfl
  | group x _ => rfl
  | call f args _ => rfl
  | unary s x ih =>
    have sign : ([s.symbol] == [',']) = false := by cases s <;> rfl
    rw [operatorSpans, List.filter_cons, sign, ih]
    rfl
  | binary op a b iha ihb =>
    have symbol : (op.symbol == [',']) = false := by cases op <;> rfl
    rw [operatorSpans, List.filter_append, List.filter_cons, iha, ihb, symbol]
    rfl

theorem commas_spell (e : Expr) : Stretch.commas (e.spell place) = [] := by
  rw [Stretch.commas, operators_spell hp]
  exact filter_isComma e 0

variable (place) in
/-- Arguments after the first one, each behind its comma. -/
def argPieces (args : List Expr) : List (List Char × List Glyph) :=
  args.map fun x => ([','], x.glyphs place)

omit hp in
theorem glyphsArgs_eq_pieces (e : Expr) (args : List Expr) :
    glyphsArgs place (e :: args) = e.glyphs place ++
      (argPieces place args).flatMap fun p => p.1.map plain ++ p.2 := by
  simp [glyphsArgs_cons, argPieces, List.flatMap_map]

theorem commas_spellArgs (e : Expr) (args : List Expr) :
    Stretch.commas (spellArgs place (e :: args)) =
      Span.ofPieces 0 (e.glyphs place) (argPieces place args) := by
  have scanned : ∀ (args : List Expr) (e : Expr) (i : Nat),
      (Span.scan Stretch.levelOperators 0 0 i (spellArgs place (e :: args))).filter
          (·.op == [',']) =
        Span.ofPieces i (e.glyphs place) (argPieces place args) := by
    intro args
    induction args with
    | nil =>
      intro e i
      rw [spellArgs_cons, scan_spell hp, List.filter_append, filter_isComma]
      simp [Span.scan, argPieces, Span.ofPieces]
    | cons x args ih =>
      intro e i
      rw [spellArgs_cons, List.flatMap_cons, List.cons_append, ← spellArgs_cons, scan_spell hp,
        List.filter_append, filter_isComma,
        Span.scan_of_longest?_eq_some (Stretch.longest?_comma _) (by simp)]
      have rest := ih x (i + (e.glyphs place).length + 1)
      rw [spellArgs_cons] at rest
      simp [argPieces, Span.ofPieces, rest]
  rw [Stretch.commas, Stretch.operators_eq_scan]
  exact scanned args e 0

end

end Expr

end Formulary
