import Formulary.Function.Basic

/-! # Fixed names

The names that have a meaning of their own in every formula: two constants, the functions of one
real number, their variants in degrees (`D`) and gradians (`G`), and the functions that keep exact
numbers exact.  Each name comes with its LaTeX form.
-/

namespace Formulary

/-- A fixed name, what it computes and how it is typeset. -/
structure FixedName where
  name : String
  term : Term
  tex : String

namespace FixedName

/-- The entry of a table with the given name. -/
def find? (table : List FixedName) (name : String) : Option FixedName :=
  table.find? fun entry => entry.name == name

def constants : List FixedName :=
  [⟨"e", .number (.real euler), "e"⟩, ⟨"pi", .number (.real pi), "\\pi"⟩]

/-- A function of an angle, in a unit that its name tells. -/
def angular (suffix : String) (unit : AngleUnit) : List FixedName :=
  [⟨"sin" ++ suffix, .function .sin unit, "\\sin"⟩,
    ⟨"cos" ++ suffix, .function .cos unit, "\\cos"⟩,
    ⟨"tan" ++ suffix, .function .tan unit, "\\tan"⟩,
    ⟨"arcsin" ++ suffix, .function .arcsin unit, "\\arcsin"⟩,
    ⟨"arccos" ++ suffix, .function .arccos unit, "\\arccos"⟩,
    ⟨"arctan" ++ suffix, .function .arctan unit, "\\arctan"⟩]

/-- Functions without an angle. -/
def plain : List FixedName :=
  [⟨"sinh", .function .sinh .radian, "\\sinh"⟩,
    ⟨"cosh", .function .cosh .radian, "\\cosh"⟩,
    ⟨"tanh", .function .tanh .radian, "\\tanh"⟩,
    ⟨"sqrt", .function .sqrt .radian, "\\sqrt"⟩,
    ⟨"exp", .function .exp .radian, "\\exp"⟩,
    ⟨"log", .function .log .radian, "\\ln"⟩,
    ⟨"log10", .function .log10 .radian, "\\log_\x7b10\x7d"⟩]

/-- Constants and functions of one real number. -/
def transcendental : List FixedName :=
  constants ++ angular "" .radian ++ plain

/-- Functions of an angle in degrees or gradians. -/
def trigVariants : List FixedName :=
  angular "D" .degree ++ angular "G" .gradian

/-- Functions that keep exact numbers exact.  The bars of `abs` come from how a call of it is
drawn, so its symbol is empty. -/
def aggregates : List FixedName :=
  [⟨"min", .function .min .radian, "\\min"⟩,
    ⟨"max", .function .max .radian, "\\max"⟩,
    ⟨"abs", .function .abs .radian, ""⟩]

def all : List FixedName :=
  transcendental ++ trigVariants ++ aggregates

end FixedName

/-- How a call is drawn. -/
inductive CallStyle where
  /-- The name and the arguments in parentheses: `f(x)`. -/
  | parenthesized
  /-- A root sign over the argument, which stands in braces. -/
  | radical
  /-- The argument between vertical bars. -/
  | bars
deriving DecidableEq, Repr

namespace CallStyle

def ofName (name : String) : CallStyle :=
  if name = "sqrt" then radical else if name = "abs" then bars else parenthesized

end CallStyle

end Formulary
