import Formulary.Binding.Basic
import Formulary.Json.Reader

/-! # Options and bindings in JSON

Both are objects with named members; instead of an object, their values may stand in an array, in
order.  Options may be left out, a unit too, and unknown members are ignored.  A known member must
not occur twice.  In a table of bindings the last of two bindings for one name counts.
-/

namespace Formulary

namespace Options

/-- Decimals: `null` or a natural number. -/
def decimals? : Json → Option (Option Nat)
  | .null => some none
  | json => json.word?.map some

/-- The options with the given members, where present. -/
def ofMembers? (mulSymbol decimals unitCommand : Option Json) : Option Options := do
  let mulSymbol ← mulSymbol.elim (some standard.mulSymbol) Json.text?
  let decimals ← decimals.elim (some standard.decimals) decimals?
  let unitCommand ← unitCommand.elim (some standard.unitCommand) Json.text?
  return ⟨mulSymbol, decimals, unitCommand⟩

def ofJson? : Json → Option Options
  | .object members => do
    guard (Json.allNamed members)
    let mulSymbol ← Json.member? members "mul_symbol"
    let decimals ← Json.member? members "decimals"
    let unitCommand ← Json.member? members "unit_command"
    ofMembers? mulSymbol decimals unitCommand
  | .array items => do
    guard (items.length ≤ 3)
    ofMembers? items[0]? items[1]? items[2]?
  | _ => none

end Options

namespace Binding

/-- The binding with the given members; the unit may be missing. -/
def ofMembers? (value symbol unit : Option Json) : Option Binding := do
  let value ← value >>= Json.float?
  let symbol ← symbol >>= Json.text?
  let unit ← unit.elim (some "") Json.text?
  return .ofFloat value symbol unit

def ofJson? : Json → Option Binding
  | .object members => do
    guard (Json.allNamed members)
    let value ← Json.member? members "numeric_result"
    let symbol ← Json.member? members "tex_symbol"
    let unit ← Json.member? members "tex_unit"
    ofMembers? value symbol unit
  | .array items => do
    guard (items.length ≤ 3)
    ofMembers? items[0]? items[1]? items[2]?
  | _ => none

end Binding

namespace Bindings

/-- Adds the members of an object to a table. -/
def addMembers (table : Bindings) : List (Option String × Json) → Option Bindings
  | [] => some table
  | (name, json) :: members => do
    let name ← name
    let b ← Binding.ofJson? json
    addMembers (table.insert name b) members

def ofJson? : Json → Option Bindings
  | .object members => addMembers [] members
  | _ => none

end Bindings

end Formulary
