import Heightfield.Build
import Heightfield.Decimal.Notation
import Heightfield.Surface.Grid
import Heightfield.Text.Quoted

/-! The settings of an animated surface: the range it is drawn over, its time, its expression, and
whether it plays. No surface holds a setting that its check refuses, and its evaluator is always the
one built from its expression. -/

namespace Heightfield

/-- Why a request is refused. -/
inductive SurfaceError
  | notANumber
  | rangeOutOfBounds
  | timeOutOfBounds
  | invalidFunc (cause : BuildError)
  | runningAlready
  | pauseWhenStopped
  | stoppedAlready
deriving DecidableEq, Inhabited

def SurfaceError.message : SurfaceError → String
  | notANumber => "Not a number"
  | rangeOutOfBounds => "Range must be between [-1000, 1000]"
  | timeOutOfBounds => "Time must be between [0, 600]"
  | invalidFunc cause => cause.message
  | runningAlready => "Running already"
  | pauseWhenStopped => "Cannot pause when stopped"
  | stoppedAlready => "Stopped already"

/-- What a surface starts with. -/
structure SurfaceSettings where
  min : Float
  max : Float
  func : String
  time : Float
deriving DecidableEq, Inhabited

/-- Waves of different directions and speeds. -/
def SurfaceSettings.standard : SurfaceSettings where
  min := -5.0
  max := 5.0
  func := "0.5 + (sin(2 * ((y + x) + t * pi / 3)) + cos(2 * ((y - x) + t * pi / 5)) + " ++
    "sin(2 * (y + t * pi / 7)) + cos(2 * (x + t * pi / 11)) + " ++
    "sin(2 * (y + t * pi / 17)) + cos(2 * (x + t * pi / 13))) / 12"
  time := 0.0

structure Surface where
  min : Float
  max : Float
  time : Float
  func : String
  evaluator : Evaluator
  running : Bool := false
  paused : Bool := false
  /-- In the order of registration. -/
  listeners : List Nat := []
  nextListener : Nat := 0
deriving Inhabited

/-- An end of the range. -/
def checkRange (v : Float) : Except SurfaceError Float :=
  if v.isNaN then .error .notANumber
  else if -1000.0 ≤ v ∧ v ≤ 1000.0 then .ok v
  else .error .rangeOutOfBounds

def checkTime (v : Float) : Except SurfaceError Float :=
  if v.isNaN then .error .notANumber
  else if 0.0 ≤ v ∧ v ≤ 600.0 then .ok v
  else .error .timeOutOfBounds

namespace Surface

/-- Checks the settings in the order minimum, maximum, time, expression. -/
def ofSettings (s : SurfaceSettings) : Except SurfaceError Surface := do
  let min ← checkRange s.min
  let max ← checkRange s.max
  let time ← checkTime s.time
  let evaluator ← (build s.func).mapError .invalidFunc
  pure { min, max, time, func := s.func, evaluator }

/-- The side of a grid cell. -/
def step (s : Surface) : Float := Grid.step s.min s.max

def sample (s : Surface) (t : Float) : Except Halt (List Grid.Vertex) :=
  Grid.sample s.evaluator s.min s.max t

/-- The settings in one line. -/
def describe (s : Surface) : String :=
  "SurfaceModel \x7b min: " ++ Notation.pointed s.min ++ ", max: " ++ Notation.pointed s.max ++
    ", time: " ++ Notation.pointed s.time ++ ", func: " ++ Text.quoted s.func ++
    ", running: " ++ toString s.running ++ ", paused: " ++ toString s.paused ++
    ", listeners: " ++ toString s.listeners.length ++ " \x7d"

end Surface

end Heightfield
