import Formulary.Binding.Basic
import Formulary.Number.Literal
import Formulary.Skeleton.Basic

/-! # What tokens mean

A token is a literal, a fixed name or a variable, and the first of these that applies decides: a
variable cannot take the name of a constant or a function.  Each token gets a symbol and a value, to
be drawn, and a term, to be computed with.
-/

namespace Formulary

/-- Where the meaning of a token comes from. -/
inductive Source where
  | literal (value : Rat)
  | fixed (entry : FixedName)
  | bound (binding : Binding)

/-- What is drawn and computed for a token. -/
structure Meaning where
  symbol : String
  value : String
  term : Term
deriving DecidableEq

namespace Source

/-- What a name stands for. -/
def ofName? (table : Bindings) (name : String) : Option Source :=
  match Literal.read? name.toList with
  | some r => some (.literal r)
  | none =>
    match FixedName.find? FixedName.all name with
    | some entry => some (.fixed entry)
    | none => (table.get? name).map .bound

/-- The meaning of a token with a given text. -/
def meaning (options : Options) (name : String) : Source → Meaning
  | literal r => ⟨name, name, .number (.exact r)⟩
  | fixed entry => ⟨entry.tex, entry.tex, entry.term⟩
  | bound b => ⟨b.symbol, b.valueText options, .number (.real b.value)⟩

end Source

/-- The meanings of tokens, in order. -/
def bind (table : Bindings) (options : Options) : List Token → Except Error (List Meaning)
  | [] => .ok []
  | t :: tokens =>
    match Source.ofName? table t.text with
    | none => .error (.unknownIdentifier t.text)
    | some source => do
      let rest ← bind table options tokens
      return source.meaning options t.text :: rest

end Formulary
