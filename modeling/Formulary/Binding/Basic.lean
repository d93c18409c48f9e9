import Formulary.Binary64.Word
import Formulary.Number.Text
import Formulary.Options
import Formulary.Text

/-! # Bindings

The variables of a formula: a value, a LaTeX symbol and a unit for each name.
-/

namespace Formulary

structure Binding where
  /-- The value as a binary64 word: a float does not tell the sign of a NaN, which is shown. -/
  bits : UInt64
  symbol : String
  unit : String
deriving DecidableEq

namespace Binding

def ofFloat (x : Float) (symbol unit : String) : Binding :=
  ⟨x.toBits, symbol, unit⟩

/-- The value that is computed with. -/
def value (b : Binding) : Float :=
  .ofBits b.bits

@[simp] theorem value_ofFloat (x : Float) (symbol unit : String) :
    (ofFloat x symbol unit).value = x :=
  Binary64.ofBits_toBits x

/-- The unit without its hyphens, which only separate its parts. -/
def shownUnit (b : Binding) : List Char :=
  b.unit.toList.filter (· != '-')

/-- The value and, unless it is blank, the unit. -/
def quantity (b : Binding) (options : Options) : String :=
  let number := realText options.decimals b.value
  if b.shownUnit.all isBlank then number
  else
    options.unitCommand ++ "\x7b" ++ number ++ "\x7d\x7b" ++ String.ofList b.shownUnit ++ "\x7d"

/-- The value as it stands in a formula: in brackets if it is signed, be it `-0` or a NaN. -/
def valueText (b : Binding) (options : Options) : String :=
  if Binary64.signBit b.bits then "\\left(" ++ b.quantity options ++ "\\right)"
  else b.quantity options

end Binding

/-- The variables by name. -/
abbrev Bindings := List (String × Binding)

namespace Bindings

/-- The variable with the given name. -/
def get? (table : Bindings) (name : String) : Option Binding :=
  table.lookup name

/-- The table in which `name` is bound as given, and nothing else is changed. -/
def insert (table : Bindings) (name : String) (b : Binding) : Bindings :=
  table.filter (fun entry => entry.1 != name) ++ [(name, b)]

end Bindings

end Formulary
