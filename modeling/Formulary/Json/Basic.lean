import Formulary.Json.Numeral

/-! # JSON values

A JSON text as a tree.  Members of an object keep their order, and a name may occur twice.
-/

namespace Formulary

inductive Json where
  | null
  | bool (value : Bool)
  | numeral (value : Json.Numeral)
  /-- A string; it has no value if an escape in it names half of a surrogate pair. -/
  | text (value : Option String)
  | array (items : List Json)
  | object (members : List (Option String × Json))

namespace Json

def text? : Json → Option String
  | text value => value
  | _ => none

def word? : Json → Option Nat
  | numeral n => n.toWord?
  | _ => none

def float? : Json → Option Float
  | numeral n => n.toFloat?
  | _ => none

/-- The member with the given name, if there is one; nothing if there are two. -/
def member? (members : List (Option String × Json)) (name : String) : Option (Option Json) :=
  match members.filter (·.1 == some name) with
  | [] => some none
  | [m] => some (some m.2)
  | _ => none

/-- Has every member a name? -/
def allNamed (members : List (Option String × Json)) : Bool :=
  members.all (·.1.isSome)

end Json

end Formulary
