import Formulary.Proofs.Expr.Draw
import Mathlib.Data.List.Infix

/-! # Delimiters

What a text of LaTeX encloses: parts in braces, and parts between a `\left` and a `\right`, each
with its delimiter.  Whatever is drawn is well nested as long as the sign of multiplication brings
no piece of a delimiter with it.
-/

namespace Formulary

/-- A pair of delimiters. -/
inductive Delimiter where
  | brace
  | parenthesis
  | bar
  | floor
deriving DecidableEq, Repr

namespace Delimiter

def opening : Delimiter → List Char
  | brace => ['\x7b']
  | parenthesis => "\\left(".toList
  | bar => "\\left|".toList
  | floor => "\\left\\lfloor".toList

def closing : Delimiter → List Char
  | brace => ['\x7d']
  | parenthesis => "\\right)".toList
  | bar => "\\right|".toList
  | floor => "\\right\\rfloor".toList

def all : List Delimiter :=
  [brace, parenthesis, bar, floor]

/-- What must not occur but in a delimiter. -/
def fragments : List (List Char) :=
  [['\x7b'], ['\x7d'], ['('], [')'], "\\left".toList, "\\right".toList]

/-- Is there no fragment of a delimiter in the text? -/
def Free (text : List Char) : Prop :=
  ∀ f ∈ fragments, ¬f <:+: text

instance (text : List Char) : Decidable (Free text) :=
  inferInstanceAs (Decidable (∀ f ∈ fragments, ¬f <:+: text))

/-- The delimiters open after a text, the innermost first, when `opened` are open before it and the
next `skip` characters belong to a delimiter.  Nothing if a delimiter closes another one than the
innermost, or if a fragment of a delimiter occurs that belongs to none. -/
def openAfter? : (skip : Nat) → (opened : List Delimiter) → List Char → Option (List Delimiter)
  | _, opened, [] => some opened
  | skip + 1, opened, _ :: cs => openAfter? skip opened cs
  | 0, opened, c :: cs =>
    match all.find? (·.opening.isPrefixOf (c :: cs)) with
    | some d => openAfter? (d.opening.length - 1) (d :: opened) cs
    | none =>
      match all.find? (·.closing.isPrefixOf (c :: cs)) with
      | some d =>
        if opened.head? = some d then openAfter? (d.closing.length - 1) opened.tail cs else none
      | none =>
        if fragments.any (·.isPrefixOf (c :: cs)) then none else openAfter? 0 opened cs

/-- Does every delimiter close the innermost one that is open, and is none open at the end? -/
def WellNested (text : List Char) : Prop :=
  openAfter? 0 [] text = some []

instance (text : List Char) : Decidable (WellNested text) :=
  inferInstanceAs (Decidable (_ = _))

/-- A bar does not close a brace. -/
example : ¬WellNested "\\left|\\sqrt\x7bx\\right|\x7d".toList := by
  decide +kernel

/-! ## Reading on -/

theorem openAfter?_opening (d : Delimiter) (opened : List Delimiter) (rest : List Char) :
    openAfter? 0 opened (d.opening ++ rest) = openAfter? 0 (d :: opened) rest := by
  cases d <;> rfl

theorem openAfter?_closing (d : Delimiter) (opened : List Delimiter) (rest : List Char) :
    openAfter? 0 (d :: opened) (d.closing ++ rest) = openAfter? 0 opened rest := by
  cases d <;> rfl

theorem exists_fragment (d : Delimiter) :
    (∃ f ∈ fragments, f <+: d.opening) ∧ ∃ f ∈ fragments, f <+: d.closing := by
  cases d <;> decide

theorem openAfter?_cons {c : Char} {cs : List Char} (h : ∀ f ∈ fragments, ¬f <+: c :: cs)
    (opened : List Delimiter) : openAfter? 0 opened (c :: cs) = openAfter? 0 opened cs := by
  have opens : all.find? (·.opening.isPrefixOf (c :: cs)) = none := by
    refine List.find?_eq_none.2 fun d _ hd => ?_
    obtain ⟨f, hf, hstart⟩ := (exists_fragment d).1
    exact h f hf (hstart.trans (List.isPrefixOf_iff_prefix.1 hd))
  have closes : all.find? (·.closing.isPrefixOf (c :: cs)) = none := by
    refine List.find?_eq_none.2 fun d _ hd => ?_
    obtain ⟨f, hf, hstart⟩ := (exists_fragment d).2
    exact h f hf (hstart.trans (List.isPrefixOf_iff_prefix.1 hd))
  have fragment : fragments.any (·.isPrefixOf (c :: cs)) = false := by
    refine List.any_eq_false.2 fun f hf hstart => h f hf ?_
    exact List.isPrefixOf_iff_prefix.1 hstart
  rw [openAfter?, opens, closes, fragment]
  rfl

/-- Does the text leave open what was open before it, whatever comes behind it? -/
def Balanced (text : List Char) : Prop :=
  ∀ opened rest, openAfter? 0 opened (text ++ rest) = openAfter? 0 opened rest

theorem Balanced.wellNested {text : List Char} (h : Balanced text) : WellNested text := by
  have := h [] []
  rwa [List.append_nil] at this

theorem balanced_nil : Balanced [] := fun _ _ => rfl

theorem Balanced.append {xs ys : List Char} (hx : Balanced xs) (hy : Balanced ys) :
    Balanced (xs ++ ys) := by
  intro opened rest
  rw [List.append_assoc, hx, hy]

theorem balanced_flatMap {α : Type} {l : List α} {f : α → List Char}
    (h : ∀ x ∈ l, Balanced (f x)) : Balanced (l.flatMap f) := by
  induction l with
  | nil => exact balanced_nil
  | cons x l ih =>
    obtain ⟨hx, hl⟩ := List.forall_mem_cons.1 h
    exact hx.append (ih hl)

theorem Balanced.enclosed {text : List Char} (h : Balanced text) (d : Delimiter) :
    Balanced (d.opening ++ text ++ d.closing) := by
  intro opened rest
  rw [List.append_assoc, List.append_assoc, openAfter?_opening, h, openAfter?_closing]

theorem balanced_char {c : Char} (h : ∀ f ∈ fragments, f.head? ≠ some c) : Balanced [c] := by
  intro opened rest
  refine openAfter?_cons (fun f hf hstart => ?_) opened
  cases f with
  | nil => exact absurd hf (by decide)
  | cons d ds => exact h _ hf (congrArg some (List.cons_prefix_cons.1 hstart).1)

theorem balanced_char_of_isPlaceholder {c : Char} (h : isPlaceholder c = true) : Balanced [c] := by
  rcases isPlaceholder_iff.1 h with rfl | rfl
  · exact balanced_char (by decide)
  · exact balanced_char (by decide)

theorem prefix_of_prefix_append_cons {xs ys f : List Char} {c : Char} (hc : c ∉ f)
    (h : f <+: xs ++ c :: ys) : f <+: xs := by
  rcases List.prefix_or_prefix_of_prefix h (List.prefix_append xs (c :: ys)) with hf | ⟨g, rfl⟩
  · exact hf
  · rw [List.prefix_append_right_inj] at h
    cases g with
    | nil => simp
    | cons d ds =>
      obtain rfl := (List.cons_prefix_cons.1 h).1
      simp at hc

/-- A text without fragments is balanced if a space follows it, which is in none of them. -/
theorem balanced_append_space {text : List Char} (h : Free text) :
    Balanced (text ++ [' ']) := by
  induction text with
  | nil => exact balanced_char (by decide)
  | cons c cs ih =>
    intro opened rest
    have tail : Free cs := fun f hf hinside =>
      h f hf (hinside.trans (List.suffix_cons c cs).isInfix)
    have head : ∀ f ∈ fragments, ¬f <+: c :: (cs ++ [' '] ++ rest) := by
      intro f hf hstart
      have space : ' ' ∉ f := (by decide : ∀ f ∈ fragments, ' ' ∉ f) f hf
      rw [List.append_assoc, List.singleton_append, ← List.cons_append] at hstart
      exact h f hf (prefix_of_prefix_append_cons space hstart).isInfix
    rw [List.cons_append, List.cons_append, openAfter?_cons head, ih tail]

end Delimiter

/-! ## Drawings -/

/-- What encloses the arguments of a call. -/
def CallStyle.delimiter : CallStyle → Delimiter
  | parenthesized => .parenthesis
  | radical => .brace
  | bars => .bar

namespace Expr

open Delimiter

theorem inked_sizeBracket_opening (style : CallStyle) :
    inked sizeBracket style.opening = style.delimiter.opening := by
  cases style <;> rfl

theorem inked_sizeBracket_closing (style : CallStyle) :
    inked sizeBracket style.closing = style.delimiter.closing := by
  cases style <;> rfl

theorem inked_sizeBracket_of_free {text : List Char} (h : Free text) :
    inked sizeBracket text = text := by
  have chars : ∀ c ∈ text, sizeBracket c = [c] := by
    intro c hc
    have opens : c ≠ '(' := by
      rintro rfl
      exact h ['('] (by decide) ((List.singleton_infix_iff _ _).2 hc)
    have closes : c ≠ ')' := by
      rintro rfl
      exact h [')'] (by decide) ((List.singleton_infix_iff _ _).2 hc)
    rw [sizeBracket, if_neg opens, if_neg closes]
  rw [inked, List.flatMap_congr chars, List.flatMap_singleton']

theorem balanced_placeholderAt (tokens : List Token) (i : Nat) :
    Balanced ((Token.placeholderAt tokens i).flatMap sizeBracket) := by
  rw [Token.flatMap_placeholderAt tokens i fun _ => sizeBracket_placeholder]
  rcases Token.placeholderAt_eq tokens i with ⟨h, -⟩ | ⟨-, t, h⟩
  · rw [h]
    exact balanced_nil
  · rw [h]
    exact balanced_char_of_isPlaceholder t.isPlaceholder_placeholder

theorem balanced_inkedFraction {top bottom : List Char} (htop : Balanced top)
    (hbottom : Balanced bottom) : Balanced (inkedFraction sizeBracket top bottom) := by
  have command : Balanced "\\frac".toList := fun _ _ => rfl
  have parts := (command.append (htop.enclosed .brace)).append (hbottom.enclosed .brace)
  have text : inkedFraction sizeBracket top bottom =
      "\\frac".toList ++ (brace.opening ++ top ++ brace.closing) ++
        (brace.opening ++ bottom ++ brace.closing) := by
    simp only [inkedFraction, List.append_assoc]
    rfl
  rw [text]
  exact parts

section Write

variable {place : Nat → List Char} {style : Nat → CallStyle} {options : Options}

theorem balanced_joint (hmul : Free options.mulSymbol.toList) (op : BinOp) :
    Balanced (inked sizeBracket (joint options op)) := by
  have free : Free (joint.sign options op) := by
    cases op with
    | mul => exact hmul
    | add => exact (by decide : Free ['+'])
    | sub => exact (by decide : Free ['-'])
    | mod => exact (by decide : Free "\\bmod".toList)
    | div | floorDiv | pow => exact (by decide : Free [])
  have text : inked sizeBracket (joint options op) = [' '] ++ (joint.sign options op ++ [' ']) := by
    rw [joint, inked, List.flatMap_append, List.flatMap_cons, ← inked,
      inked_sizeBracket_of_free free]
    rfl
  rw [text]
  exact (balanced_char (by decide)).append (balanced_append_space free)

/-- A drawing is balanced if that holds of what is drawn for the tokens. -/
theorem balanced_write (hmul : Free options.mulSymbol.toList)
    (hplace : ∀ i, Balanced (place i)) (bare : Bool) (e : Expr) :
    Balanced (write sizeBracket place style options bare e) := by
  induction e generalizing bare with
  | operand i => exact hplace i
  | group x ih =>
    cases bare with
    | true => exact ih false
    | false => exact (ih false).enclosed .parenthesis
  | unary s x ih =>
    have sign : Balanced (sizeBracket s.symbol) := by
      cases s with
      | plus => exact balanced_char (by decide)
      | minus => exact balanced_char (by decide)
    exact sign.append (ih false)
  | binary op a b iha ihb =>
    have fraction := balanced_inkedFraction (iha true) (ihb true)
    cases op with
    | add | sub | mul | mod =>
      exact ((iha false).append (balanced_joint hmul _)).append (ihb false)
    | div => exact fraction
    | floorDiv =>
      have space : Balanced [' '] := balanced_char (by decide)
      have text := ((space.append fraction).append space).enclosed .floor
      simp only [List.append_assoc] at text
      simp only [write, List.append_assoc]
      exact text
    | pow =>
      have caret : Balanced ['^'] := balanced_char (by decide)
      have text := ((iha false).append caret).append ((ihb true).enclosed .brace)
      simp only [List.append_assoc] at text
      simp only [write, List.append_assoc]
      exact text
  | call f args ih =>
    have comma : Balanced (inked sizeBracket ", ".toList) := fun _ _ => rfl
    have hargs : Balanced (writeArgs sizeBracket place style options args) := by
      cases args with
      | nil => exact balanced_nil
      | cons a args =>
        obtain ⟨ha, hrest⟩ := List.forall_mem_cons.1 ih
        rw [writeArgs_cons]
        refine (ha true).append (balanced_flatMap fun x hx => comma.append (hrest x hx true))
    have text := (hplace f).append (hargs.enclosed (style f).delimiter)
    rw [write, inked_sizeBracket_opening, inked_sizeBracket_closing]
    simpa only [List.append_assoc] using text

end Write

/-- A template is well nested, whatever the expression. -/
theorem wellNested_typeset {options : Options}
    (hmul : Free options.mulSymbol.toList) (tokens : List Token) (e : Expr) :
    WellNested (e.typeset tokens options).toList := by
  rw [typeset, String.toList_ofList, render_eq_write, flatMap_write]
  simp only [List.flatMap_singleton]
  exact (balanced_write hmul (balanced_placeholderAt tokens) false e).wellNested

/-- The drawing of a quotient in bars, where the sign of multiplication has halves of delimiters. -/
theorem wellNested_typeset_bars :
    Free "|\\rfloor".toList ∧
      WellNested ((call 0 [binary .floorDiv (binary .mul (operand 1) (operand 2))
        (group (operand 1))]).typeset [⟨"abs", 0, 0, .special .bars⟩]
          { Options.standard with mulSymbol := "|\\rfloor" }).toList :=
  ⟨by decide, wellNested_typeset (by decide) _ _⟩

end Expr

end Formulary
