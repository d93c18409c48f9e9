import Formulary.Binary64.Arith
import Formulary.Binary64.Basic
import Formulary.Binary64.Text
import Formulary.Binary64.Word
import Formulary.Binding.Basic
import Formulary.Binding.Meaning
import Formulary.Bracket
import Formulary.Compile
import Formulary.Decimal
import Formulary.Error
import Formulary.Expr.Basic
import Formulary.Expr.Evaluate
import Formulary.Expr.OfSkeleton
import Formulary.Expr.Typeset
import Formulary.Function.Basic
import Formulary.Function.Table
import Formulary.Json.Basic
import Formulary.Json.Numeral
import Formulary.Json.Reader
import Formulary.Json.Settings
import Formulary.Log
import Formulary.Number.Arith
import Formulary.Number.Basic
import Formulary.Number.Literal
import Formulary.Number.Text
import Formulary.Operator
import Formulary.Options
import Formulary.Proofs.Arith.Basic
import Formulary.Proofs.Arith.Compile
import Formulary.Proofs.Arith.Text
import Formulary.Proofs.Binary64.Exact
import Formulary.Proofs.Binary64.Infinite
import Formulary.Proofs.Binary64.Nearest
import Formulary.Proofs.Binary64.Order
import Formulary.Proofs.Binary64.Parts
import Formulary.Proofs.Binary64.Power
import Formulary.Proofs.Binary64.Range
import Formulary.Proofs.Bracket.Depth
import Formulary.Proofs.Bracket.Matching
import Formulary.Proofs.Bracket.Unmatched
import Formulary.Proofs.Compile
import Formulary.Proofs.Compile.Faults
import Formulary.Proofs.Compile.Options
import Formulary.Proofs.Compile.Renaming
import Formulary.Proofs.Compile.Substitution
import Formulary.Proofs.Compile.Variables
import Formulary.Proofs.Expr.Backward
import Formulary.Proofs.Expr.Clear
import Formulary.Proofs.Expr.Completeness
import Formulary.Proofs.Expr.Context
import Formulary.Proofs.Expr.Cuts
import Formulary.Proofs.Expr.Delimiter
import Formulary.Proofs.Expr.Derivation
import Formulary.Proofs.Expr.Draw
import Formulary.Proofs.Expr.Exact
import Formulary.Proofs.Expr.Faithful
import Formulary.Proofs.Expr.Faults
import Formulary.Proofs.Expr.Finite
import Formulary.Proofs.Expr.Grammar
import Formulary.Proofs.Expr.Inline
import Formulary.Proofs.Expr.OfSkeleton
import Formulary.Proofs.Expr.Operators
import Formulary.Proofs.Expr.Places
import Formulary.Proofs.Expr.Readback
import Formulary.Proofs.Expr.Recovery
import Formulary.Proofs.Expr.Soundness
import Formulary.Proofs.Expr.Spelling
import Formulary.Proofs.Expr.Substitution
import Formulary.Proofs.Expr.Trim
import Formulary.Proofs.Expr.Typing
import Formulary.Proofs.Expr.Write
import Formulary.Proofs.Function.Extreme
import Formulary.Proofs.Number.Decimal
import Formulary.Proofs.Number.Division
import Formulary.Proofs.Number.Exact
import Formulary.Proofs.Number.Literal
import Formulary.Proofs.Number.Overflow
import Formulary.Proofs.Number.Power
import Formulary.Proofs.Outcome
import Formulary.Proofs.Skeleton.Lexeme
import Formulary.Proofs.Skeleton.Nesting
import Formulary.Proofs.Skeleton.Numbered
import Formulary.Proofs.Skeleton.Operators
import Formulary.Proofs.Skeleton.Refusal
import Formulary.Proofs.Skeleton.Rename
import Formulary.Proofs.Skeleton.Spacing
import Formulary.Proofs.Skeleton.Spell
import Formulary.Proofs.Skeleton.Splice
import Formulary.Proofs.Skeleton.Trace
import Formulary.Proofs.Span.First
import Formulary.Proofs.Span.Scan
import Formulary.Proofs.Stretch.Balanced
import Formulary.Proofs.Stretch.Cut
import Formulary.Proofs.Template
import Formulary.Skeleton.Basic
import Formulary.Skeleton.Nesting
import Formulary.Skeleton.OfFormula
import Formulary.Skeleton.Piece
import Formulary.Skeleton.Stretch
import Formulary.Span
import Formulary.Template
import Formulary.Text
