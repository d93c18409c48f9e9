import Formulary.Number.Arith

/-! # Functions

The functions that a formula can call, the units in which the trigonometric ones measure angles,
and what they compute.
-/

namespace Formulary

inductive Function where
  | sin
  | cos
  | tan
  | arcsin
  | arccos
  | arctan
  | sinh
  | cosh
  | tanh
  | sqrt
  | exp
  | log
  | log10
  | min
  | max
  | abs
deriving DecidableEq, Repr

inductive AngleUnit where
  | radian
  | degree
  | gradian
deriving DecidableEq, Repr

/-- How many arguments a function takes. -/
inductive Arity where
  | exactly (count : Nat)
  | atLeast (count : Nat)
deriving DecidableEq, Repr

namespace Arity

def accepts : Arity → Nat → Bool
  | exactly k, n => n == k
  | atLeast k, n => k ≤ n

end Arity

/-- The ratio of a circle's circumference to its diameter. -/
def pi : Float := .ofBits 0x400921FB54442D18

/-- The base of the natural logarithm. -/
def euler : Float := .ofBits 0x4005BF0A8B145769

namespace AngleUnit

/-- The unit, in radians. -/
def radians : AngleUnit → Float
  | radian => 1
  | degree => pi / 180
  | gradian => pi / 200

end AngleUnit

namespace Function

def name : Function → String
  | sin => "sin"
  | cos => "cos"
  | tan => "tan"
  | arcsin => "arcsin"
  | arccos => "arccos"
  | arctan => "arctan"
  | sinh => "sinh"
  | cosh => "cosh"
  | tanh => "tanh"
  | sqrt => "sqrt"
  | exp => "exp"
  | log => "log"
  | log10 => "log10"
  | min => "min"
  | max => "max"
  | abs => "abs"

def arity : Function → Arity
  | min | max => .atLeast 1
  | _ => .exactly 1

def accepts (f : Function) (count : Nat) : Bool :=
  f.arity.accepts count

/-- The value of a function of one float; `min`, `max` and `abs` are not among them. -/
def ofReal? (f : Function) (unit : AngleUnit) (x : Float) : Option Float :=
  match f with
  | sin => some (x * unit.radians).sin
  | cos => some (x * unit.radians).cos
  | tan => some (x * unit.radians).tan
  | arcsin => some (x.asin / unit.radians)
  | arccos => some (x.acos / unit.radians)
  | arctan => some (x.atan / unit.radians)
  | sinh => some x.sinh
  | cosh => some x.cosh
  | tanh => some x.tanh
  | sqrt => some x.sqrt
  | exp => some x.exp
  | log => some x.log
  | log10 => some x.log10
  | min | max | abs => none

/-- The first of the smallest numbers of a list. -/
def least (first : Number) (rest : List Number) : Number :=
  rest.foldl (fun best a => if a.lessThan best then a else best) first

/-- The first of the largest numbers of a list. -/
def greatest (first : Number) (rest : List Number) : Number :=
  rest.foldl (fun best a => if best.lessThan a then a else best) first

/-- The value of `min`, `max` and `abs`, which keep exact numbers exact. -/
def aggregate (f : Function) (first : Number) (rest : List Number) : Number :=
  match f with
  | min => least first rest
  | max => greatest first rest
  | _ => first.abs

/-- The value of a function.  A function of one float looks at the first argument only, and its
value must be finite. -/
def apply (f : Function) (unit : AngleUnit) : List Number → Except Error Number
  | [] => .error (.arithmetic (.noArgument f.name))
  | first :: rest =>
    match f.ofReal? unit first.toFloat with
    | none => .ok (f.aggregate first rest)
    | some y =>
      if y.isFinite then .ok (.real y)
      else .error (.arithmetic (.outsideDomain f.name first.toFloat))

end Function

/-- What a token stands for in a computation. -/
inductive Term where
  | number (value : Number)
  | function (function : Function) (unit : AngleUnit)
deriving DecidableEq

end Formulary
