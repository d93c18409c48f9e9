import Formulary.Compile
import Formulary.Text

/-! # The log of a compilation

What a compilation reports on its way: the skeleton, the template, where each token got its meaning,
and the result.  A compilation that fails reports the steps before the failure.
-/

namespace Formulary.Log

inductive Level where
  | debug
  | trace
deriving DecidableEq, Repr

structure Record where
  level : Level
  text : String
deriving DecidableEq, Repr

namespace Level

def name : Level → String
  | debug => "DEBUG"
  | trace => "TRACE"

end Level

namespace Record

/-- The record as a line. -/
def line (r : Record) : String :=
  r.level.name ++ " " ++ r.text

end Record

def skeletonRecord (formula : String) (skeleton : Skeleton) (tokens : List Token) : Record :=
  ⟨.debug, "formule " ++ Quoted.encode formula ++ " : " ++ toString tokens.length ++
    " jetons, squelette " ++ skeleton.text⟩

def templateRecord (template : String) : Record :=
  ⟨.debug, "squelette LaTeX : " ++ template⟩

def resultRecord (formula : String) (value : Number) : Record :=
  ⟨.debug, "résultat " ++ Quoted.encode formula ++ " = " ++ value.text⟩

/-- Where the meaning of a token comes from. -/
def sourceText : Source → String
  | .literal _ => "littéral"
  | .fixed entry => "table fixe -> " ++ Quoted.encode entry.tex
  | .bound b => "liée = " ++ Binary64.text b.value

def tokenRecord (t : Token) (source : Source) : Record :=
  ⟨.trace, "jeton " ++ toString t.index ++ " " ++ Quoted.encode t.text ++ " : " ++
    sourceText source⟩

/-- The records of the tokens before the first one without a meaning. -/
def tokenRecords (table : Bindings) : List Token → List Record
  | [] => []
  | t :: tokens =>
    match Source.ofName? table t.text with
    | some source => tokenRecord t source :: tokenRecords table tokens
    | none => []

/-- The records of `compile`, in order. -/
def ofCompile (formula : String) (table : Bindings) (options : Options) : List Record :=
  match Skeleton.ofFormula formula with
  | .error _ => []
  | .ok (skeleton, tokens) =>
    skeletonRecord formula skeleton tokens ::
      match Expr.ofSkeleton skeleton tokens with
      | .error _ => []
      | .ok e =>
        templateRecord (e.typeset tokens options) :: tokenRecords table tokens ++
          match compile formula table options with
          | .error _ => []
          | .ok compiled => [resultRecord formula compiled.value]

end Formulary.Log
