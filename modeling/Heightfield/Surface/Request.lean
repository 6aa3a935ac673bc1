import Heightfield.Surface.Basic

/-! Requests to a surface. One is either refused, and changes nothing, or carried out, and then
every listener is told what changed and last that anything did. -/

namespace Heightfield

inductive SurfaceEvent
  | min | max | func | time | running | paused
  /-- The last event of every request carried out. -/
  | any
deriving DecidableEq, Inhabited

def SurfaceEvent.name : SurfaceEvent → String
  | min => "Min" | max => "Max" | func => "Func" | time => "Time"
  | running => "Running" | paused => "Paused" | any => "Any"

inductive SurfaceRequest
  | setMin (v : Float)
  | setMax (v : Float)
  | setTime (v : Float)
  | setFunc (source : String)
  | start
  | pause
  | stop
  | listen
  | unlisten (listener : Nat)
deriving DecidableEq, Inhabited

inductive SurfaceReply
  | done
  | listening (listener : Nat)
  /-- Whether the listener was there to be removed. -/
  | removed (found : Bool)
deriving DecidableEq, Inhabited

/-- What a request came to. -/
structure SurfaceOutcome where
  reply : Except SurfaceError SurfaceReply
  surface : Surface
  /-- The events dispatched, in order. -/
  events : List SurfaceEvent := []
  journal : Journal := []
deriving Inhabited

namespace Surface

/-- Carried out: the request's own events, and then the closing one. -/
def accept (s : Surface) (events : List SurfaceEvent) (journal : Journal) : SurfaceOutcome :=
  ⟨.ok .done, s, events ++ [.any], journal⟩

def refuse (s : Surface) (e : SurfaceError) (journal : Journal) : SurfaceOutcome :=
  ⟨.error e, s, [], journal⟩

/-- Puts a checked value where `put` says, or logs under `name` why not. -/
def store (s : Surface) (name : String) (event : SurfaceEvent) (checked : Except SurfaceError Float)
    (put : Float → Surface) : SurfaceOutcome :=
  match checked with
  | .ok v => (put v).accept [event] []
  | .error e => s.refuse e [⟨.warn, name ++ " rejected: " ++ e.message⟩]

/-- The new expression's warnings are logged before the change itself. -/
def setFunc (s : Surface) (source : String) : SurfaceOutcome :=
  let journal := buildJournal source
  match build source with
  | .error e => s.refuse (.invalidFunc e) (journal ++ [⟨.warn, "func rejected: " ++ e.message⟩])
  | .ok evaluator =>
    let warnings := evaluator.warnings.map fun w =>
      let d := w.diagnostic
      (⟨d.severity.logLevel, d.summary⟩ : LogRecord)
    accept { s with evaluator, func := source } [.func]
      (journal ++ warnings ++ [⟨.info, "surface function replaced: " ++ source⟩])

/-- Begins to play, or goes on after a pause. -/
def start (s : Surface) : SurfaceOutcome :=
  if s.running ∧ ¬s.paused then s.refuse .runningAlready []
  else accept { s with running := true, paused := false }
    ((if s.running then [] else [.running]) ++ (if s.paused then [.paused] else [])) []

/-- Pauses, or goes on. -/
def pause (s : Surface) : SurfaceOutcome :=
  if s.running then accept { s with paused := !s.paused } [.paused] []
  else s.refuse .pauseWhenStopped []

/-- Stopping ends a pause. -/
def stop (s : Surface) : SurfaceOutcome :=
  if s.running then
    accept { s with running := false, paused := false }
      (.running :: if s.paused then [.paused] else []) []
  else s.refuse .stoppedAlready []

/-- Registers a listener under a number never given before. -/
def listen (s : Surface) : SurfaceOutcome where
  reply := .ok (.listening s.nextListener)
  surface := { s with
    listeners := s.listeners ++ [s.nextListener]
    nextListener := s.nextListener + 1 }

def unlisten (s : Surface) (listener : Nat) : SurfaceOutcome where
  reply := .ok (.removed (s.listeners.contains listener))
  surface := { s with listeners := s.listeners.filter (· ≠ listener) }

def handle (s : Surface) : SurfaceRequest → SurfaceOutcome
  | .setMin v => s.store "min" .min (checkRange v) fun v => { s with min := v }
  | .setMax v => s.store "max" .max (checkRange v) fun v => { s with max := v }
  | .setTime v => s.store "time" .time (checkTime v) fun v => { s with time := v }
  | .setFunc source => s.setFunc source
  | .start => s.start
  | .pause => s.pause
  | .stop => s.stop
  | .listen => s.listen
  | .unlisten listener => s.unlisten listener

end Surface

/-- Who hears what: each event reaches every listener before the next one is sent. -/
def SurfaceOutcome.deliveries (o : SurfaceOutcome) : List (Nat × SurfaceEvent) :=
  o.events.flatMap fun event => o.surface.listeners.map fun listener => (listener, event)

end Heightfield
