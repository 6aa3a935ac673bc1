import Heightfield.Code

/-! The frames of a call. A call takes its arguments one by one: each is evaluated where the call
stands, and its value goes on top of the frames of the definition and of the arguments before it. So
two chains of frames are kept apart on the way, the one that the arguments see and the one that
grows for the body. The evaluation of compiled code calls in just this way. -/

namespace Heightfield

/-- What code sees when it runs. -/
structure Surroundings where
  point : Point
  program : Program
  frames : Frames

namespace Surroundings

def withFrames (around : Surroundings) (frames : Frames) : Surroundings := { around with frames }

/-- The value of the frame `hops` above the innermost. -/
def read (around : Surroundings) (hops : Nat) : Float := around.frames.read hops

/-- The frames that stand when the innermost `hops` are gone. -/
def ancestor (around : Surroundings) (hops : Nat) : Frames := around.frames.drop hops

/-- What the body of a function sees that is called with such arguments, and whose definition stands
`hops` frames above the caller. -/
def inside (caller : Surroundings) (hops : Nat) (values : List Float) : Surroundings :=
  caller.withFrames (Frames.ofCall values (caller.ancestor hops))

variable {m : Type → Type} [Monad m]

/-- Evaluates the arguments from left to right at the caller, each adding a frame to those of the
definition, and runs `body` under them all. -/
def call (caller : Surroundings) (body : Surroundings → m Float) :
    List (Surroundings → m Float) → Frames → m Float
  | [], definition => body (caller.withFrames definition)
  | arg :: args, definition => do
    let value ← arg caller
    call caller body args (value :: definition)

end Surroundings

namespace Frames

variable {values : List Float} {definition frames : Frames} {hops : Nat}

theorem ofCall_nil (definition : Frames) : ofCall [] definition = definition := rfl

theorem ofCall_cons (value : Float) (values : List Float) (definition : Frames) :
    ofCall (value :: values) definition = ofCall values (value :: definition) := by
  rw [ofCall, ofCall, List.reverse_cons, List.append_assoc, List.singleton_append]

theorem read_of_length_le (h : frames.length ≤ hops) : frames.read hops = Binary64.nan := by
  rw [read, List.getElem?_eq_none h, Option.getD_none]

theorem read_drop (frames : Frames) (n hops : Nat) :
    read (frames.drop n) hops = frames.read (n + hops) := by
  rw [read, read, List.getElem?_drop]

/-- The last argument is the innermost frame. -/
theorem read_ofCall_below (h : hops < values.length) :
    values[values.length - 1 - hops]? = some (read (ofCall values definition) hops) := by
  have hreverse : hops < values.reverse.length := by rwa [List.length_reverse]
  have hthere : values.length - 1 - hops < values.length := by omega
  rw [read, ofCall, List.getElem?_append_left hreverse, List.getElem?_reverse h,
    List.getElem?_eq_getElem hthere, Option.getD_some]

theorem read_ofCall_above (values : List Float) (definition : Frames) (hops : Nat) :
    read (ofCall values definition) (values.length + hops) = definition.read hops := by
  have hle : values.reverse.length ≤ values.length + hops := by
    rw [List.length_reverse]
    exact Nat.le_add_right _ _
  rw [read, read, ofCall, List.getElem?_append_right hle, List.length_reverse,
    Nat.add_sub_cancel_left]

end Frames

namespace Surroundings

/-- `around` is the caller's point and program, and behind the arguments, of which the last is the
innermost, the caller's frames from `hops` on. No other frame of the caller is in sight. -/
structure Holds (around : Surroundings) (values : List Float) (caller : Surroundings) (hops : Nat) :
    Prop where
  point : around.point = caller.point
  program : around.program = caller.program
  argument : ∀ h < values.length, values[values.length - 1 - h]? = some (around.read h)
  definition : ∀ h, around.read (values.length + h) = caller.read (hops + h)
  beyond : ∀ h, caller.frames.length ≤ hops + h → around.read (values.length + h) = Binary64.nan

theorem inside_holds (caller : Surroundings) (hops : Nat) (values : List Float) :
    (caller.inside hops values).Holds values caller hops := by
  have hdefinition : ∀ h, (caller.inside hops values).read (values.length + h) =
      caller.read (hops + h) := fun h =>
    (Frames.read_ofCall_above values _ h).trans (caller.frames.read_drop hops h)
  refine ⟨rfl, rfl, fun h hlt => Frames.read_ofCall_below hlt, hdefinition, fun h hle => ?_⟩
  rw [hdefinition]
  exact Frames.read_of_length_le hle

variable {m : Type → Type} [Monad m] [LawfulMonad m]

/-- All arguments are evaluated at the caller, in order, and then the body runs. -/
theorem call_eq (caller : Surroundings) (body : Surroundings → m Float)
    (args : List (Surroundings → m Float)) (definition : Frames) :
    caller.call body args definition =
      (args.mapM fun arg => arg caller) >>= fun values =>
        body (caller.withFrames (Frames.ofCall values definition)) := by
  -- The caller stays as it is; the frames so far grow, so they are general.
  induction args generalizing definition with
  | nil => rw [call, List.mapM_nil, pure_bind, Frames.ofCall_nil]
  | cons arg args ih =>
    rw [call, List.mapM_cons, bind_assoc]
    refine bind_congr fun value => ?_
    rw [ih, bind_assoc]
    refine bind_congr fun values => ?_
    rw [pure_bind, Frames.ofCall_cons]

end Surroundings

/-- Compiled code, as what it gives in its surroundings with at most `depth` calls open. -/
def Code.within (draws : Draws) (depth : Nat) (code : Code) (around : Surroundings) : Run Float :=
  code.run draws around.point (around.program.enter draws around.point depth) around.frames

theorem Code.runAll_eq_mapM (draws : Draws) (point : Point) (enter : Nat → Frames → Run Float)
    (codes : List Code) (frames : Frames) :
    Code.runAll draws point enter codes frames =
      codes.mapM fun code => code.run draws point enter frames := by
  induction codes with
  | nil => rfl
  | cons code codes ih => rw [Code.runAll, List.mapM_cons, ih]

theorem Code.within_call (draws : Draws) (depth : Nat) (caller : Surroundings) {index : Nat}
    (hops : Nat) (args : List Code) {body : Code}
    (h : caller.program.functions[index]? = some body) :
    (Code.call index hops args).within draws (depth + 1) caller =
      caller.call (body.within draws depth) (args.map (·.within draws (depth + 1)))
        (caller.ancestor hops) := by
  rw [Surroundings.call_eq, List.mapM_map, Code.within, Code.run, Code.runAll_eq_mapM]
  refine bind_congr fun values => ?_
  rw [Program.enter, h]
  rfl

/-- However arguments and body are made, and whatever is bound where a call stands: the arguments
are evaluated there, each once and from left to right, none of them under another; then the body
runs once, and it sees their values and the frames of its definition. The call of compiled code is
such a call, of the body in the function table. -/
theorem call_lays_frames {m : Type → Type} [Monad m] [LawfulMonad m] (caller : Surroundings)
    (hops : Nat) (args : List (Surroundings → m Float)) (body : Surroundings → m Float) :
    caller.call body args (caller.ancestor hops) =
      ((args.mapM fun arg => arg caller) >>= fun values => body (caller.inside hops values)) ∧
    (∀ values, (caller.inside hops values).Holds values caller hops) ∧
    ∀ draws depth index codes code, caller.program.functions[index]? = some code →
      (Code.call index hops codes).within draws (depth + 1) caller =
        caller.call (code.within draws depth) (codes.map (·.within draws (depth + 1)))
          (caller.ancestor hops) :=
  ⟨caller.call_eq body args (caller.ancestor hops), caller.inside_holds hops,
    fun draws depth _ codes _ h => Code.within_call draws depth caller hops codes h⟩

/-- The arguments `x` and the innermost frame, which is none of the definition's: one after the
other is noted, then the body, and it reads the first one. So does the compiled code. -/
theorem twoArguments_laid :
    let caller : Surroundings := ⟨⟨5.0, 6.0, 7.0⟩, ⟨.const 0.0, #[.frame 1]⟩, [10.0, 20.0]⟩
    let x : Surroundings → StateM (List Nat) Float := fun around => do
      modify (0 :: ·)
      pure around.point.x
    let innermost : Surroundings → StateM (List Nat) Float := fun around => do
      modify (1 :: ·)
      pure (around.read 0)
    let body : Surroundings → StateM (List Nat) Float := fun around => do
      modify (2 :: ·)
      pure (around.read 1)
    (caller.call body [x, innermost] (caller.ancestor 1)).run [] = (5.0, [2, 1, 0]) ∧
      (caller.inside 1 [5.0, 10.0]).read 2 = 20.0 ∧
      (Code.call 0 1 [.param .x, .frame 0]).within (fun _ => 0.0) 1 caller 0 = .ok 5.0 0 := by
  intro caller x innermost body
  obtain ⟨hcall, hholds, hcode⟩ := call_lays_frames caller 1 [x, innermost] body
  refine ⟨?_, (hholds [5.0, 10.0]).definition 0, ?_⟩
  · rw [hcall]
    rfl
  · rw [hcode _ 0 0 [.param .x, .frame 0] (.frame 1) rfl]
    rfl

end Heightfield
