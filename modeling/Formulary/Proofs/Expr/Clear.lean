import Formulary.Proofs.Expr.Draw

/-! # Drawings and the sign of multiplication

Of the options a drawing depends on the sign of multiplication only, which is drawn once for each
multiplication.  The placeholders of a template are those of its tokens if no sign drawn in it looks
like a placeholder, and only then; and only then is it filled, since a placeholder that belongs to
no token is one too many.
-/

namespace Formulary.Expr

mutual

/-- The number of multiplications. -/
def multiplications : Expr → Nat
  | operand _ => 0
  | group x => x.multiplications
  | unary _ x => x.multiplications
  | binary op a b => (if op = .mul then 1 else 0) + a.multiplications + b.multiplications
  | call _ args => multiplicationsList args

def multiplicationsList : List Expr → Nat
  | [] => 0
  | e :: es => e.multiplications + multiplicationsList es

end

/-- Is no sign drawn for a multiplication that looks like a placeholder? -/
def Clear (options : Options) (e : Expr) : Prop :=
  (∀ c ∈ options.mulSymbol.toList, isPlaceholder c = false) ∨ e.multiplications = 0

/-! ## Drawings under two options -/

theorem joint_congr {options options' : Options} {op : BinOp}
    (h : op = .mul → options.mulSymbol = options'.mulSymbol) :
    joint options op = joint options' op := by
  cases op with
  | mul => rw [joint, joint, joint.sign, joint.sign, h rfl]
  | add | sub | div | floorDiv | mod | pow => rfl

section Ink

variable {α : Type} {ink : Char → List α} {place : Nat → List α} {style : Nat → CallStyle}
  {options options' : Options}

theorem write_options {e : Expr} (bare : Bool)
    (h : options.mulSymbol = options'.mulSymbol ∨ e.multiplications = 0) :
    write ink place style options bare e = write ink place style options' bare e := by
  induction e generalizing bare with
  | operand i => rfl
  | group x ih => rw [write, write, ih false h]
  | unary s x ih => rw [write, write, ih false h]
  | binary op a b iha ihb =>
    simp only [multiplications, Nat.add_eq_zero_iff] at h
    have ha bare := iha bare (h.imp id fun h => h.1.2)
    have hb bare := ihb bare (h.imp id And.right)
    have sign : joint options op = joint options' op :=
      joint_congr fun hop => h.elim id fun h => absurd h.1.1 (by simp [hop])
    cases op <;> simp only [write, ha, hb, sign]
  | call f args ih =>
    have hargs : writeArgs ink place style options args =
        writeArgs ink place style options' args := by
      rw [multiplications] at h
      induction args with
      | nil => rfl
      | cons a args ihargs =>
        obtain ⟨ha, hrest⟩ := List.forall_mem_cons.1 ih
        simp only [multiplicationsList, Nat.add_eq_zero_iff] at h
        rw [writeArgs, writeArgs, ha true (h.imp id And.left),
          ihargs hrest (h.imp id And.right)]
    rw [write, write, hargs]

/-- In an ink that draws no fixed text, a drawing is as long as its tokens and its signs of
multiplication. -/
theorem length_write (hink : ∀ c, isPlaceholder c = false → ink c = []) (bare : Bool) (e : Expr) :
    (write ink place style options bare e).length =
      (e.tokenOrder.flatMap place).length +
        e.multiplications * (inked ink options.mulSymbol.toList).length := by
  have text : ∀ {cs : List Char}, (∀ c ∈ cs, isPlaceholder c = false) → inked ink cs = [] :=
    fun hcs => List.flatMap_eq_nil_iff.2 fun c hc => hink c (hcs c hc)
  induction e generalizing bare with
  | operand i => simp [write, tokenOrder, multiplications]
  | group x ih =>
    cases bare <;> simp [write, tokenOrder, multiplications, ih, hink '(' rfl, hink ')' rfl]
  | unary s x ih =>
    have sign : ink s.symbol = [] := hink _ (by cases s <;> rfl)
    simp [write, tokenOrder, multiplications, ih, sign]
  | binary op a b iha ihb =>
    have joints : (inked ink (joint options op)).length =
        if op = .mul then (inked ink options.mulSymbol.toList).length else 0 := by
      have blank : ink ' ' = [] := hink ' ' rfl
      cases op with
      | mul => simp [joint, joint.sign, inked, blank]
      | add | sub | div | floorDiv | mod | pow =>
        rw [text (forall_not_isPlaceholder rfl)]
        rfl
    have open_frac : inked ink "\\frac\x7b".toList = [] := text (forall_not_isPlaceholder rfl)
    have mid_frac : inked ink "\x7d\x7b".toList = [] := text (forall_not_isPlaceholder rfl)
    have floor : inked ink "\\left\\lfloor ".toList = [] := text (forall_not_isPlaceholder rfl)
    have close_floor : inked ink " \\right\\rfloor".toList = [] :=
      text (forall_not_isPlaceholder rfl)
    have power : inked ink "^\x7b".toList = [] := text (forall_not_isPlaceholder rfl)
    have close : ink '\x7d' = [] := hink _ rfl
    cases op <;>
      simp only [write, inkedFraction, tokenOrder, multiplications, List.length_append,
        List.flatMap_append, iha, ihb, joints, open_frac, mid_frac, floor, close_floor, power,
        close, List.length_nil, reduceCtorEq, if_true, if_false, Nat.add_mul, Nat.one_mul,
        Nat.zero_mul] <;>
      omega
  | call f args ih =>
    have comma : inked ink ", ".toList = [] := text (forall_not_isPlaceholder rfl)
    have opening : inked ink (style f).opening = [] :=
      text (forall_not_isPlaceholder (by cases style f <;> rfl))
    have closing : inked ink (style f).closing = [] :=
      text (forall_not_isPlaceholder (by cases style f <;> rfl))
    have hargs : (writeArgs ink place style options args).length =
        ((tokenOrderList args).flatMap place).length +
          multiplicationsList args * (inked ink options.mulSymbol.toList).length := by
      induction args with
      | nil => simp [writeArgs, tokenOrderList, multiplicationsList]
      | cons a args ihargs =>
        obtain ⟨ha, hrest⟩ := List.forall_mem_cons.1 ih
        rw [writeArgs, comma, List.nil_append, tokenOrderList, multiplicationsList,
          List.length_append, ha, List.flatMap_append, List.length_append]
        cases args with
        | nil => simp [tokenOrderList, multiplicationsList]
        | cons b args =>
          rw [if_neg (by simp), ihargs hrest, Nat.add_mul]
          omega
    rw [write, opening, closing, List.append_nil, List.append_nil, List.length_append, hargs,
      tokenOrder, multiplications, List.flatMap_cons, List.length_append, Nat.add_assoc]

end Ink

/-! ## Templates -/

section Templates

variable {tokens : List Token} {options options' : Options} {e : Expr}

theorem typeset_options (h : options.mulSymbol = options'.mulSymbol ∨ e.multiplications = 0) :
    e.typeset tokens options = e.typeset tokens options' := by
  rw [typeset, typeset, render_eq_write, render_eq_write, write_options false h]

theorem draw_options {texts : List String}
    (h : options.mulSymbol = options'.mulSymbol ∨ e.multiplications = 0) :
    e.draw tokens options texts = e.draw tokens options' texts := by
  rw [draw, draw, write_options false h]

theorem clear_iff : e.Clear options ↔
    e.multiplications * (options.mulSymbol.toList.filter isPlaceholder).length = 0 := by
  rw [Clear, or_comm, Nat.mul_eq_zero, List.length_eq_zero_iff, List.filter_eq_nil_iff]
  simp

/-- The placeholders of a template: those of the tokens, and those of the signs of multiplication. -/
theorem length_filter_isPlaceholder_typeset (tokens : List Token) (options : Options) (e : Expr) :
    ((e.typeset tokens options).toList.filter isPlaceholder).length =
      (e.tokenOrder.flatMap (Token.placeholderAt tokens)).length +
        e.multiplications * (options.mulSymbol.toList.filter isPlaceholder).length := by
  have boxed : ∀ c, (sizeBracket c).filter isPlaceholder = [c].filter isPlaceholder := by
    intro c
    unfold sizeBracket
    split
    · subst c
      rfl
    · split
      · subst c
        rfl
      · rfl
  have single : ∀ cs : List Char,
      cs.filter isPlaceholder = cs.flatMap fun c => [c].filter isPlaceholder := by
    intro cs
    rw [← List.filter_flatMap, List.flatMap_singleton']
  have filtered : (e.typeset tokens options).toList.filter isPlaceholder =
      write (fun c => [c].filter isPlaceholder)
        (fun i => (Token.placeholderAt tokens i).filter isPlaceholder) (Token.styleAt tokens)
        options false e := by
    rw [typeset, String.toList_ofList, render_eq_write, List.filter_flatMap, flatMap_write]
    simp only [boxed, ← single]
  have places : ∀ i, (Token.placeholderAt tokens i).filter isPlaceholder =
      Token.placeholderAt tokens i := by
    intro i
    rcases Token.placeholderAt_eq tokens i with ⟨h, _⟩ | ⟨_, t, h⟩
    · rw [h]
      rfl
    · rw [h, List.filter_cons_of_pos t.isPlaceholder_placeholder]
      rfl
  rw [filtered, length_write (by simp), inked, ← single, funext places]

theorem fill_typeset_of_clear (hclear : e.Clear options)
    (horder : e.tokenOrder = List.range tokens.length) {texts : List String}
    (h : texts.length = tokens.length) :
    Template.fill (e.typeset tokens options) tokens texts = .ok (e.draw tokens options texts) := by
  rcases hclear with hmul | hnone
  · exact fill_typeset_of_tokenOrder hmul horder h
  · have bare : options.mulSymbol = Options.standard.mulSymbol ∨ e.multiplications = 0 := .inr hnone
    rw [typeset_options bare, draw_options bare,
      fill_typeset_of_tokenOrder (forall_not_isPlaceholder rfl) horder h]

/-- A sign of multiplication that looks like a placeholder is one placeholder too many. -/
theorem clear_of_fill_typeset (horder : e.tokenOrder = List.range tokens.length)
    {texts : List String} {out : String}
    (h : Template.fill (e.typeset tokens options) tokens texts = .ok out) : e.Clear options := by
  obtain ⟨cs, hcs, -⟩ := bind_eq_ok_iff.1 h
  have count := congrArg List.length (Template.fillChars_eq_ok_iff.1 hcs).1
  rw [length_filter_isPlaceholder_typeset, horder, Token.flatMap_placeholderAt_range,
    Nat.add_eq_left] at count
  exact clear_iff.2 count

theorem filter_isPlaceholder_typeset_of_clear (h : e.Clear options) :
    (e.typeset tokens options).toList.filter isPlaceholder =
      e.tokenOrder.flatMap (Token.placeholderAt tokens) := by
  rcases h with hmul | hnone
  · exact filter_isPlaceholder_typeset hmul e
  · have bare : options.mulSymbol = Options.standard.mulSymbol ∨ e.multiplications = 0 := .inr hnone
    rw [typeset_options bare, filter_isPlaceholder_typeset (forall_not_isPlaceholder rfl)]

/-- A template has the placeholders of the tokens in reading order, where tokens that do not exist
are left out, and no others, exactly if no sign drawn in it looks like a placeholder. -/
theorem placeholders_typeset_iff (tokens : List Token) (options : Options) (e : Expr) :
    (e.typeset tokens options).toList.filter isPlaceholder =
        e.tokenOrder.filterMap (fun i => tokens[i]?.map Token.placeholder) ↔
      e.Clear options := by
  rw [List.filterMap_eq_flatMap_toList]
  constructor
  · intro h
    have count := congrArg List.length h
    rw [length_filter_isPlaceholder_typeset] at count
    exact clear_iff.2 (Nat.add_eq_left.1 count)
  · exact filter_isPlaceholder_typeset_of_clear

example :
    let tokens : List Token := [⟨"x", 0, 0, .ordinary⟩, ⟨"f", 1, 1, .special .parenthesized⟩]
    let e := binary .mul (call 1 [operand 7, operand 0]) (operand 1)
    (e.typeset tokens .standard).toList.filter isPlaceholder = ['■', '□', '■'] := by
  decide +kernel

end Templates

end Formulary.Expr
