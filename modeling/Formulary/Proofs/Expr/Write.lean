import Formulary.Expr.Typeset
import Formulary.Proofs.Expr.Grammar
import Formulary.Proofs.Expr.Spelling

/-! # Expressions in ink

An expression is drawn in one walk, whatever it is drawn with: `ink` draws the characters of the
notation and `place` the tokens.  A template is drawn with characters, placeholders for the tokens;
drawn with glyphs it shows which token each placeholder stands for.
-/

namespace Formulary.Expr

/-- What stands between the operands of an operator that is written between them. -/
def joint (options : Options) (op : BinOp) : List Char :=
  ' ' :: sign op ++ [' ']
where
  sign : BinOp → List Char
    | .add => ['+']
    | .sub => ['-']
    | .mul => options.mulSymbol.toList
    | .mod => "\\bmod".toList
    | .div | .floorDiv | .pow => []

section Ink

variable {α β : Type}

/-- A text in ink. -/
def inked (ink : Char → List α) (text : List Char) : List α :=
  text.flatMap ink

theorem flatMap_inked (ink : Char → List α) (text : List Char) (f : α → List β) :
    (inked ink text).flatMap f = inked (fun c => (ink c).flatMap f) text :=
  List.flatMap_assoc

/-- A fraction in ink. -/
def inkedFraction (ink : Char → List α) (top bottom : List α) : List α :=
  inked ink "\\frac\x7b".toList ++ top ++ inked ink "\x7d\x7b".toList ++ bottom ++ ink '\x7d'

theorem flatMap_inkedFraction (ink : Char → List α) (top bottom : List α) (f : α → List β) :
    (inkedFraction ink top bottom).flatMap f =
      inkedFraction (fun c => (ink c).flatMap f) (top.flatMap f) (bottom.flatMap f) := by
  simp only [inkedFraction, List.flatMap_append, flatMap_inked]

variable (ink : Char → List α) (place : Nat → List α) (style : Nat → CallStyle)
  (options : Options)

mutual

/-- The drawing of an expression; `bare` leaves out the brackets of a group. -/
def write : (bare : Bool) → Expr → List α
  | _, operand i => place i
  | bare, group x => if bare then write false x else ink '(' ++ write false x ++ ink ')'
  | _, unary sign x => ink sign.symbol ++ write false x
  | _, binary op a b =>
    match op with
    | .add | .sub | .mul | .mod =>
      write false a ++ inked ink (joint options op) ++ write false b
    | .div => inkedFraction ink (write true a) (write true b)
    | .floorDiv =>
      inked ink "\\left\\lfloor ".toList ++ inkedFraction ink (write true a) (write true b) ++
        inked ink " \\right\\rfloor".toList
    | .pow => write false a ++ inked ink "^\x7b".toList ++ write true b ++ ink '\x7d'
  | _, call f args =>
    place f ++ inked ink (style f).opening ++ writeArgs args ++ inked ink (style f).closing

/-- The drawings of arguments, separated by commas. -/
def writeArgs : List Expr → List α
  | [] => []
  | e :: es => write true e ++ if es.isEmpty then [] else inked ink ", ".toList ++ writeArgs es

end

theorem writeArgs_cons (e : Expr) (es : List Expr) :
    writeArgs ink place style options (e :: es) =
      write ink place style options true e ++
        es.flatMap fun x => inked ink ", ".toList ++ write ink place style options true x := by
  induction es generalizing e with
  | nil => simp [writeArgs]
  | cons x es ih =>
    rw [writeArgs, ih]
    simp

variable {ink place style options}

/-- What is done to each part of a drawing may be done to ink and tokens beforehand. -/
theorem flatMap_write (f : α → List β) (bare : Bool) (e : Expr) :
    (write ink place style options bare e).flatMap f =
      write (fun c => (ink c).flatMap f) (fun i => (place i).flatMap f) style options bare e := by
  induction e generalizing bare with
  | operand i => rfl
  | group x ih => cases bare <;> simp [write, ih]
  | unary s x ih => simp [write, ih]
  | binary op a b iha ihb =>
    cases op <;> simp [write, iha, ihb, flatMap_inked, flatMap_inkedFraction]
  | call g args ih =>
    have hargs : (writeArgs ink place style options args).flatMap f =
        writeArgs (fun c => (ink c).flatMap f) (fun i => (place i).flatMap f) style options
          args := by
      induction args with
      | nil => rfl
      | cons a args ihargs =>
        obtain ⟨ha, hrest⟩ := List.forall_mem_cons.1 ih
        rw [writeArgs, List.flatMap_append, ha, writeArgs, ← ihargs hrest]
        cases args <;> simp [flatMap_inked]
    simp [write, flatMap_inked, hargs]

/-- What holds of the ink of every character that is no placeholder, and of every token, holds of
the whole drawing. -/
theorem forall_mem_write {p : α → Prop} (hink : ∀ c, isPlaceholder c = false → ∀ x ∈ ink c, p x)
    (hplace : ∀ i, ∀ x ∈ place i, p x)
    (hmul : ∀ c ∈ options.mulSymbol.toList, isPlaceholder c = false) (bare : Bool) (e : Expr) :
    ∀ x ∈ write ink place style options bare e, p x := by
  have text : ∀ {cs}, (∀ c ∈ cs, isPlaceholder c = false) → ∀ x ∈ inked ink cs, p x := by
    intro cs hcs x hx
    obtain ⟨c, hc, hx⟩ := List.mem_flatMap.1 hx
    exact hink c (hcs c hc) x hx
  induction e generalizing bare with
  | operand i => exact hplace i
  | group x ih =>
    cases bare with
    | true => exact ih false
    | false =>
      simp only [write, Bool.false_eq_true, if_false, List.forall_mem_append]
      exact ⟨⟨hink _ rfl, ih false⟩, hink _ rfl⟩
  | unary s x ih =>
    simp only [write, List.forall_mem_append]
    exact ⟨hink _ (by cases s <;> rfl), ih false⟩
  | binary op a b iha ihb =>
    have sign : ∀ c ∈ joint.sign options op, isPlaceholder c = false := by
      cases op with
      | mul => exact hmul
      | add | sub | div | floorDiv | mod | pow => exact forall_not_isPlaceholder rfl
    have between : ∀ c ∈ joint options op, isPlaceholder c = false := by
      rw [joint, List.cons_append, List.forall_mem_cons, List.forall_mem_append]
      exact ⟨rfl, sign, forall_not_isPlaceholder rfl⟩
    have fraction : ∀ x ∈ inkedFraction ink (write ink place style options true a)
        (write ink place style options true b), p x := by
      simp only [inkedFraction, List.forall_mem_append]
      exact ⟨⟨⟨⟨text (forall_not_isPlaceholder rfl), iha true⟩,
        text (forall_not_isPlaceholder rfl)⟩, ihb true⟩, hink _ rfl⟩
    cases op with
    | add | sub | mul | mod =>
      simp only [write, List.forall_mem_append]
      exact ⟨⟨iha false, text between⟩, ihb false⟩
    | div => exact fraction
    | floorDiv =>
      simp only [write, List.forall_mem_append]
      exact ⟨⟨text (forall_not_isPlaceholder rfl), fraction⟩, text (forall_not_isPlaceholder rfl)⟩
    | pow =>
      simp only [write, List.forall_mem_append]
      exact ⟨⟨⟨iha false, text (forall_not_isPlaceholder rfl)⟩, ihb true⟩, hink _ rfl⟩
  | call f args ih =>
    have hargs : ∀ x ∈ writeArgs ink place style options args, p x := by
      cases args with
      | nil => simp [writeArgs]
      | cons a args =>
        obtain ⟨ha, hrest⟩ := List.forall_mem_cons.1 ih
        rw [writeArgs_cons, List.forall_mem_append]
        refine ⟨ha true, fun x hx => ?_⟩
        obtain ⟨b, hb, hx⟩ := List.mem_flatMap.1 hx
        rcases List.mem_append.1 hx with hx | hx
        · exact text (forall_not_isPlaceholder rfl) x hx
        · exact hrest b hb true x hx
    simp only [write, List.forall_mem_append]
    exact ⟨⟨⟨hplace f, text (forall_not_isPlaceholder (by cases style f <;> rfl))⟩, hargs⟩,
      text (forall_not_isPlaceholder (by cases style f <;> rfl))⟩

theorem write_tokens (bare : Bool) (e : Expr) :
    write (fun _ => []) (fun i => [i]) style options bare e = e.tokenOrder := by
  have none : ∀ cs, inked (fun _ => ([] : List Nat)) cs = [] := by simp [inked]
  induction e generalizing bare with
  | operand i => rfl
  | group x ih => cases bare <;> simp [write, tokenOrder, ih]
  | unary s x ih => simp [write, tokenOrder, ih]
  | binary op a b iha ihb => cases op <;> simp [write, inkedFraction, tokenOrder, iha, ihb, none]
  | call f args ih =>
    have hargs : writeArgs (fun _ => []) (fun i => [i]) style options args =
        tokenOrderList args := by
      induction args with
      | nil => rfl
      | cons a args ihargs =>
        obtain ⟨ha, hrest⟩ := List.forall_mem_cons.1 ih
        rw [writeArgs, ha, ihargs hrest]
        cases args <;> simp [tokenOrderList, none]
    simp [write, tokenOrder, hargs, none]

/-- A drawing without its ink is that of the tokens, in reading order. -/
theorem write_no_ink (bare : Bool) (e : Expr) :
    write (fun _ => []) place style options bare e = e.tokenOrder.flatMap place := by
  rw [← @write_tokens style options bare, flatMap_write]
  simp

end Ink

/-! ## Templates -/

section Equations

variable (tokens : List Token) (options : Options) (bare : Bool)

theorem render_group (x : Expr) :
    render tokens options bare (group x) =
      if bare then render tokens options false x
      else '(' :: render tokens options false x ++ [')'] := rfl

theorem render_unary (s : Sign) (x : Expr) :
    render tokens options bare (unary s x) = s.symbol :: render tokens options false x := rfl

theorem render_between {op : BinOp} (h : op = .add ∨ op = .sub ∨ op = .mul ∨ op = .mod)
    (a b : Expr) :
    render tokens options bare (binary op a b) =
      spaced (render tokens options false a) (joint.sign options op)
        (render tokens options false b) := by
  rcases h with rfl | rfl | rfl | rfl <;> rfl

theorem render_div (a b : Expr) :
    render tokens options bare (binary .div a b) =
      fraction (render tokens options true a) (render tokens options true b) := rfl

theorem render_floorDiv (a b : Expr) :
    render tokens options bare (binary .floorDiv a b) =
      "\\left\\lfloor ".toList ++
        fraction (render tokens options true a) (render tokens options true b) ++
        " \\right\\rfloor".toList := rfl

theorem render_pow (a b : Expr) :
    render tokens options bare (binary .pow a b) =
      render tokens options false a ++ "^\x7b".toList ++ render tokens options true b ++
        ['\x7d'] := rfl

theorem render_call (f : Nat) (args : List Expr) :
    render tokens options bare (call f args) =
      Token.placeholderAt tokens f ++ (Token.styleAt tokens f).opening ++
        renderArgs tokens options args ++ (Token.styleAt tokens f).closing := rfl

theorem renderArgs_cons (e : Expr) (es : List Expr) :
    renderArgs tokens options (e :: es) =
      render tokens options true e ++
        if es.isEmpty then [] else ", ".toList ++ renderArgs tokens options es := rfl

end Equations

theorem inked_char (text : List Char) : inked (fun c => [c]) text = text :=
  List.flatMap_singleton' text

theorem inkedFraction_char (top bottom : List Char) :
    inkedFraction (fun c => [c]) top bottom = fraction top bottom := by
  rw [inkedFraction, inked_char, inked_char]
  rfl

/-- A template before its brackets are made to grow is a drawing with characters. -/
theorem render_eq_write (tokens : List Token) (options : Options) (bare : Bool) (e : Expr) :
    render tokens options bare e =
      write (fun c => [c]) (Token.placeholderAt tokens) (Token.styleAt tokens) options bare e := by
  induction e generalizing bare with
  | operand i => rfl
  | group x ih => cases bare <;> simp [write, render_group, ih]
  | unary s x ih => simp [write, render_unary, ih]
  | binary op a b iha ihb =>
    cases op with
    | add | sub | mul | mod =>
      rw [render_between tokens options bare (by simp), write, iha, ihb, inked_char, spaced, joint]
      simp only [List.append_assoc, List.cons_append, List.nil_append]
    | div => rw [render_div, write, inkedFraction_char, iha, ihb]
    | floorDiv =>
      rw [render_floorDiv, write, inkedFraction_char, inked_char, inked_char, iha, ihb]
    | pow => rw [render_pow, write, iha, ihb, inked_char]
  | call f args ih =>
    have hargs : renderArgs tokens options args =
        writeArgs (fun c => [c]) (Token.placeholderAt tokens) (Token.styleAt tokens) options
          args := by
      induction args with
      | nil => rfl
      | cons a args ihargs =>
        obtain ⟨ha, hrest⟩ := List.forall_mem_cons.1 ih
        rw [writeArgs, renderArgs_cons, ha, ihargs hrest, inked_char]
    rw [render_call, write, inked_char, inked_char, hargs]

theorem styleAt_eq (tokens : List Token) (i : Nat) :
    Token.styleAt tokens i = (tokens[i]?.map Token.style).getD .parenthesized := by
  rw [Token.styleAt]
  cases tokens[i]? <;> rfl

/-- Of the tokens only their kinds matter to the template. -/
theorem typeset_of_kinds {tokens tokens' : List Token}
    (h : tokens'.map Token.kind = tokens.map Token.kind) (options : Options) (e : Expr) :
    e.typeset tokens' options = e.typeset tokens options := by
  have kind : ∀ i : Nat, tokens'[i]?.map Token.kind = tokens[i]?.map Token.kind := by
    intro i
    rw [← List.getElem?_map, h, List.getElem?_map]
  have place : Token.placeholderAt tokens' = Token.placeholderAt tokens := by
    funext i
    have := congrArg (Option.map TokenKind.placeholder) (kind i)
    rw [Option.map_map, Option.map_map] at this
    exact congrArg Option.toList this
  have call : Token.styleAt tokens' = Token.styleAt tokens := by
    funext i
    have := congrArg (Option.map TokenKind.style) (kind i)
    rw [Option.map_map, Option.map_map] at this
    rw [styleAt_eq, styleAt_eq]
    exact congrArg (Option.getD · _) this
  rw [typeset, typeset, render_eq_write, render_eq_write, place, call]

end Formulary.Expr
