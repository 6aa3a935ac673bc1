import Heightfield.Binary64

/-! The names that need no binding: the point at which a field is evaluated, and the builtin
constants and functions. -/

namespace Heightfield

/-- The coordinates of an evaluation. -/
inductive Param
  | x | y | t
deriving DecidableEq, Inhabited

def Param.name : Param → String
  | .x => "x" | .y => "y" | .t => "t"

def Param.all : List Param := [.x, .y, .t]

def Param.lookup? (name : String) : Option Param := Param.all.find? (·.name = name)

inductive MathFunction
  | abs | acos | acosh | asin | asinh | atan | atanh | cbrt | ceil | cos | cosh | exp | expm1
  | floor | log | log10 | log1p | log2 | round | sign | sin | sinh | sqrt | tan | tanh | trunc
deriving DecidableEq, Inhabited

namespace MathFunction

def name : MathFunction → String
  | abs => "abs" | acos => "acos" | acosh => "acosh" | asin => "asin" | asinh => "asinh"
  | atan => "atan" | atanh => "atanh" | cbrt => "cbrt" | ceil => "ceil" | cos => "cos"
  | cosh => "cosh" | exp => "exp" | expm1 => "expm1" | floor => "floor" | log => "log"
  | log10 => "log10" | log1p => "log1p" | log2 => "log2" | round => "round" | sign => "sign"
  | sin => "sin" | sinh => "sinh" | sqrt => "sqrt" | tan => "tan" | tanh => "tanh"
  | trunc => "trunc"

def all : List MathFunction :=
  [abs, acos, acosh, asin, asinh, atan, atanh, cbrt, ceil, cos, cosh, exp, expm1, floor, log, log10,
    log1p, log2, round, sign, sin, sinh, sqrt, tan, tanh, trunc]

theorem mem_all (f : MathFunction) : f ∈ all := by cases f <;> decide

/-- `exp v - 1` without cancellation: the rounding of `u = exp v` is divided out again, because
`log u` meets the same error. -/
def expMinusOne (v : Float) : Float :=
  let u := Float.exp v
  let d := u - 1.0
  if d == 0.0 then v
  else if d == -1.0 || u.isInf then d
  else d * (v / Float.log u)

/-- `log (1 + v)` without cancellation, by the same device. -/
def logOnePlus (v : Float) : Float :=
  let u := 1.0 + v
  if u == 1.0 then v
  else if u.isInf && 0.0 < u then u
  else Float.log u * (v / (u - 1.0))

def logTwo : Float := 0.6931471805599453

/-- From here on 1 is lost beside a square, and `log (2 * v)` is the inverse of both `sinh` and
`cosh`. -/
def squareLimit : Float := 268435456.0

/-- Inverse hyperbolic sine. Of the sum `a + sqrt (a ^ 2 + 1)` only what it has above 1 is computed,
so that small arguments keep their digits. A zero keeps its sign. -/
def areaSine (v : Float) : Float :=
  let a := v.abs
  let w :=
    if squareLimit < a then Float.log a + logTwo
    else logOnePlus (a + a * a / (1.0 + Float.sqrt (a * a + 1.0)))
  if Binary64.isSigned v then -w else w

/-- Inverse hyperbolic cosine, from the distance to 1: no digit of it is lost in the sum. -/
def areaCosine (v : Float) : Float :=
  if v < 1.0 then Binary64.nan
  else if squareLimit < v then Float.log v + logTwo
  else
    let d := v - 1.0
    logOnePlus (d + Float.sqrt (d * (v + 1.0)))

/-- Inverse hyperbolic tangent. -/
def areaTangent (v : Float) : Float := 0.5 * logOnePlus (2.0 * v / (1.0 - v))

/-- A half goes up. -/
def roundHalfUp (v : Float) : Float :=
  let f := v.floor
  if 0.5 ≤ v - f then f + 1.0 else f

/-- Zeros and NaN are their own sign. -/
def signum (v : Float) : Float :=
  if 0.0 < v then 1.0 else if v < 0.0 then -1.0 else v

def truncate (v : Float) : Float := if v < 0.0 then v.ceil else v.floor

def apply : MathFunction → Float → Float
  | abs => Float.abs
  | acos => Float.acos
  | acosh => areaCosine
  | asin => Float.asin
  | asinh => areaSine
  | atan => Float.atan
  | atanh => areaTangent
  | cbrt => Float.cbrt
  | ceil => Float.ceil
  | cos => Float.cos
  | cosh => Float.cosh
  | exp => Float.exp
  | expm1 => expMinusOne
  | floor => Float.floor
  | log => Float.log
  | log10 => Float.log10
  | log1p => logOnePlus
  | log2 => Float.log2
  | round => roundHalfUp
  | sign => signum
  | sin => Float.sin
  | sinh => Float.sinh
  | sqrt => Float.sqrt
  | tan => Float.tan
  | tanh => Float.tanh
  | trunc => truncate

end MathFunction

inductive Builtin
  | constant (value : Float)
  | math (f : MathFunction)
  /-- A number drawn evenly from [0, 1). -/
  | random
deriving Inhabited

namespace Builtin

/-- How many arguments it is called with, if it is called at all. -/
def arity? : Builtin → Option Nat
  | constant _ => none
  | math _ => some 1
  | random => some 0

def pi : Float := 3.141592653589793

def e : Float := 2.718281828459045

def table : List (String × Builtin) :=
  [("pi", constant pi), ("e", constant e), ("rand", random)] ++
    MathFunction.all.map fun f => (f.name, math f)

def names : List String := table.map (·.1)

def lookup? (name : String) : Option Builtin := table.lookup name

end Builtin

end Heightfield
