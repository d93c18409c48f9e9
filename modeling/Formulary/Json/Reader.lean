import Formulary.Json.Basic

/-! # Reading JSON

Texts are read by the grammar of JSON to the letter, and nothing may follow the value but blanks.
-/

namespace Formulary.Json

def isSpace (c : Char) : Bool :=
  c == ' ' || c == '\t' || c == '\n' || c == '\r'

def skipSpace (cs : List Char) : List Char :=
  cs.dropWhile isSpace

/-! ## Strings -/

/-- A part of a string: a character, or the sixteen bits named by an escape. -/
inductive Unit16 where
  | char (c : Char)
  | code (value : Nat)
deriving DecidableEq, Repr

def hexDigit? (c : Char) : Option Nat :=
  if '0' ≤ c ∧ c ≤ '9' then some (c.toNat - '0'.toNat)
  else if 'a' ≤ c ∧ c ≤ 'f' then some (c.toNat - 'a'.toNat + 10)
  else if 'A' ≤ c ∧ c ≤ 'F' then some (c.toNat - 'A'.toNat + 10)
  else none

def hexDigits? (a b c d : Char) : Option Nat := do
  let a ← hexDigit? a
  let b ← hexDigit? b
  let c ← hexDigit? c
  let d ← hexDigit? d
  return ((a * 16 + b) * 16 + c) * 16 + d

/-- The character of an escape with one letter. -/
def escaped? (c : Char) : Option Char :=
  if c = '"' ∨ c = '\\' ∨ c = '/' then some c
  else if c = 'b' then some '\x08'
  else if c = 'f' then some '\x0c'
  else if c = 'n' then some '\n'
  else if c = 'r' then some '\r'
  else if c = 't' then some '\t'
  else none

/-- The parts of a string up to its closing quote, and what follows. -/
def quoted? : List Char → Option (List Unit16 × List Char)
  | [] => none
  | '"' :: cs => some ([], cs)
  | '\\' :: 'u' :: a :: b :: c :: d :: cs => do
    let value ← hexDigits? a b c d
    let (parts, rest) ← quoted? cs
    return (.code value :: parts, rest)
  | '\\' :: c :: cs => do
    let e ← escaped? c
    let (parts, rest) ← quoted? cs
    return (.char e :: parts, rest)
  | c :: cs =>
    if c.toNat < 0x20 then none
    else do
      let (parts, rest) ← quoted? cs
      return (.char c :: parts, rest)

def isHighSurrogate (n : Nat) : Bool :=
  0xD800 ≤ n && n < 0xDC00

def isLowSurrogate (n : Nat) : Bool :=
  0xDC00 ≤ n && n < 0xE000

/-- The characters that the parts of a string spell. -/
def spelled? : List Unit16 → Option (List Char)
  | [] => some []
  | .char c :: parts => (spelled? parts).map (c :: ·)
  | .code n :: .code k :: parts =>
    if isHighSurrogate n then
      if isLowSurrogate k then
        (spelled? parts).map (Char.ofNat (0x10000 + (n - 0xD800) * 0x400 + (k - 0xDC00)) :: ·)
      else none
    else if isLowSurrogate n then none
    else (spelled? (.code k :: parts)).map (Char.ofNat n :: ·)
  | .code n :: parts =>
    if isHighSurrogate n || isLowSurrogate n then none
    else (spelled? parts).map (Char.ofNat n :: ·)

def stringOf (parts : List Unit16) : Option String :=
  (spelled? parts).map String.ofList

/-! ## Values -/

mutual

/-- A value and what follows it, read in at most `fuel` nested steps. -/
def value? : (fuel : Nat) → List Char → Option (Json × List Char)
  | 0, _ => none
  | fuel + 1, cs =>
    match skipSpace cs with
    | 'n' :: 'u' :: 'l' :: 'l' :: cs => some (.null, cs)
    | 't' :: 'r' :: 'u' :: 'e' :: cs => some (.bool true, cs)
    | 'f' :: 'a' :: 'l' :: 's' :: 'e' :: cs => some (.bool false, cs)
    | '"' :: cs => (quoted? cs).map fun (parts, rest) => (.text (stringOf parts), rest)
    | '[' :: cs =>
      match skipSpace cs with
      | ']' :: cs => some (.array [], cs)
      | cs => (items? fuel cs).map fun (items, rest) => (.array items, rest)
    | '\x7b' :: cs =>
      match skipSpace cs with
      | '\x7d' :: cs => some (.object [], cs)
      | cs => (members? fuel cs).map fun (members, rest) => (.object members, rest)
    | cs => (Numeral.read? cs).map fun (n, rest) => (.numeral n, rest)

/-- The items of an array up to its closing bracket. -/
def items? : (fuel : Nat) → List Char → Option (List Json × List Char)
  | 0, _ => none
  | fuel + 1, cs => do
    let (item, cs) ← value? fuel cs
    match skipSpace cs with
    | ',' :: cs => do
      let (items, rest) ← items? fuel cs
      return (item :: items, rest)
    | ']' :: cs => return ([item], cs)
    | _ => none

/-- The members of an object up to its closing brace. -/
def members? : (fuel : Nat) → List Char → Option (List (Option String × Json) × List Char)
  | 0, _ => none
  | fuel + 1, cs =>
    match skipSpace cs with
    | '"' :: cs => do
      let (name, cs) ← quoted? cs
      match skipSpace cs with
      | ':' :: cs => do
        let (item, cs) ← value? fuel cs
        match skipSpace cs with
        | ',' :: cs => do
          let (members, rest) ← members? fuel cs
          return ((stringOf name, item) :: members, rest)
        | '\x7d' :: cs => return ([(stringOf name, item)], cs)
        | _ => none
      | _ => none
    | _ => none

end

/-- Reads a JSON text.  Each character opens at most two nested steps. -/
def read? (text : String) : Option Json :=
  let cs := text.toList
  match value? (2 * cs.length + 2) cs with
  | some (json, rest) => if (skipSpace rest).isEmpty then some json else none
  | none => none

end Formulary.Json
