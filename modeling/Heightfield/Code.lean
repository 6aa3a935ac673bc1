import Heightfield.Builtin
import Heightfield.Operator

/-! Compiled expressions and their evaluation. Names are gone: a bound value is found by counting
frames from the innermost, a bound function by its index in the function table. Evaluation follows
the code; only a call leaves it, and calls are counted against `depth`, so an evaluation that calls
without end is one that no depth suffices for. -/

namespace Heightfield

/-- Neither zero nor NaN. -/
def truthy (v : Float) : Bool := v != 0.0 && !v.isNaN

def ofBool (b : Bool) : Float := if b then 1.0 else 0.0

/-- Powers, but an exponent that is NaN gives NaN, and so does a base of magnitude 1 under an
infinite exponent. -/
def power (base exponent : Float) : Float :=
  if exponent.isNaN || (base.abs == 1.0 && exponent.isInf) then Binary64.nan
  else Float.pow base exponent

namespace Op

/-- The result, where the left operand alone decides it. -/
def decided? (op : Op) (left : Float) : Option Float :=
  match op with
  | and => if truthy left then none else some left
  | or => if truthy left then some left else none
  | _ => none

/-- The result, where both operands are needed. -/
def apply : Op → Float → Float → Float
  | add, l, r => l + r
  | sub, l, r => l - r
  | mul, l, r => l * r
  | div, l, r => l / r
  | pow, l, r => power l r
  | and, _, r => r
  | or, _, r => r
  | lt, l, r => ofBool (l < r)
  | le, l, r => ofBool (l ≤ r)
  | gt, l, r => ofBool (r < l)
  | ge, l, r => ofBool (r ≤ l)
  | eq, l, r => ofBool (l == r)
  | ne, l, r => ofBool (l != r)

end Op

inductive Code
  | const (value : Float)
  | param (p : Param)
  /-- The frame `hops` above the innermost. -/
  | frame (hops : Nat)
  | negate (operand : Code)
  | math (f : MathFunction) (arg : Code)
  | random
  | binary (op : Op) (left right : Code)
  | branch (condition positive negative : Code)
  /-- Evaluates `body` under one more frame. -/
  | bind (value body : Code)
  /-- Calls a function whose definition stands `hops` frames above the call. -/
  | call (index hops : Nat) (args : List Code)
deriving Inhabited

/-- Where a field is evaluated. -/
structure Point where
  x : Float
  y : Float
  t : Float
deriving Inhabited

def Point.get (p : Point) : Param → Float
  | .x => p.x | .y => p.y | .t => p.t

/-- The numbers that `rand` draws in one evaluation, in order. -/
abbrev Draws := Nat → Float

/-- Why an evaluation gave no value. -/
inductive Halt
  /-- More calls were open than the depth allows. -/
  | tooDeep
  | noFunction (index : Nat)
deriving DecidableEq, Inhabited

/-- An evaluation, which counts the numbers drawn so far. -/
abbrev Run := EStateM Halt Nat

/-- The values of the bindings around, the innermost first. -/
abbrev Frames := List Float

/-- A frame that is not there reads as NaN. -/
def Frames.read (frames : Frames) (hops : Nat) : Float := (frames[hops]?).getD Binary64.nan

/-- The frames of a call: its arguments over those of the definition, the last one innermost. -/
def Frames.ofCall (values : List Float) (definition : Frames) : Frames :=
  values.reverse ++ definition

def draw (draws : Draws) : Run Float := do
  let n ← get
  set (n + 1)
  pure (draws n)

namespace Code

variable (draws : Draws) (point : Point) (enter : Nat → Frames → Run Float)

mutual

/-- Evaluates with `enter index frames` standing for the body of function `index`. -/
def run : Code → Frames → Run Float
  | const value, _ => pure value
  | param p, _ => pure (point.get p)
  | frame hops, frames => pure (Frames.read frames hops)
  | negate operand, frames => do
    let v ← run operand frames
    pure (-v)
  | math f arg, frames => do
    let v ← run arg frames
    pure (f.apply v)
  | random, _ => draw draws
  | binary op left right, frames => do
    let l ← run left frames
    match op.decided? l with
    | some v => pure v
    | none =>
      let r ← run right frames
      pure (op.apply l r)
  | branch condition positive negative, frames => do
    let c ← run condition frames
    if truthy c then run positive frames else run negative frames
  | bind value body, frames => do
    let v ← run value frames
    run body (v :: frames)
  | call index hops args, frames => do
    let values ← runAll args frames
    enter index (Frames.ofCall values (frames.drop hops))

/-- Evaluates from left to right, all in the same frames. -/
def runAll : List Code → Frames → Run (List Float)
  | [], _ => pure []
  | c :: cs, frames => do
    let v ← run c frames
    let vs ← runAll cs frames
    pure (v :: vs)

end

end Code

/-- An expression's code and the functions it calls. -/
structure Program where
  root : Code
  functions : Array Code
deriving Inhabited

namespace Program

/-- Runs a function's body with `depth` more calls allowed. -/
def enter (program : Program) (draws : Draws) (point : Point) :
    Nat → Nat → Frames → Run Float
  | 0, _, _ => throw .tooDeep
  | depth + 1, index, frames =>
    match program.functions[index]? with
    | none => throw (.noFunction index)
    | some body => body.run draws point (program.enter draws point depth) frames

/-- The value at a point, with at most `depth` calls open at a time. -/
def evalWithin (program : Program) (depth : Nat) (draws : Draws) (point : Point) :
    Except Halt Float :=
  match program.root.run draws point (program.enter draws point depth) [] 0 with
  | .ok v _ => .ok v
  | .error e _ => .error e

/-- Calls nest no deeper than this. -/
def depthLimit : Nat := Nat.pow 2 40

def eval (program : Program) (draws : Draws) (point : Point) : Except Halt Float :=
  program.evalWithin depthLimit draws point

end Program

end Heightfield
