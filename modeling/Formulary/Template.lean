import Formulary.Error
import Formulary.Skeleton.Basic

/-! # Templates

A template is a text with placeholders.  It is filled from left to right with one text for each
token, and every placeholder must be that of its token.  The texts are not looked at.
-/

namespace Formulary.Template

/-- The characters of a filled template. -/
def fillChars : (template : List Char) → List Token → List String → Except Error (List Char)
  | [], [], [] => .ok []
  | [], [], _ :: _ => .error (.malformed 0 .unusedTokens)
  | [], t :: _, _ => .error (.malformed t.position .unusedTokens)
  | c :: cs, tokens, texts =>
    if isPlaceholder c then
      match tokens, texts with
      | t :: tokens, text :: texts =>
        if t.placeholder = c then do
          let rest ← fillChars cs tokens texts
          return text.toList ++ rest
        else .error (.malformed t.position .otherPlaceholder)
      | _, _ => .error (.malformed 0 .surplusPlaceholder)
    else do
      let rest ← fillChars cs tokens texts
      return c :: rest

/-- The template with its placeholders replaced by the texts. -/
def fill (template : String) (tokens : List Token) (texts : List String) : Except Error String := do
  let cs ← fillChars template.toList tokens texts
  return String.ofList cs

end Formulary.Template
