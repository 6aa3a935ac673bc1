import Heightfield.Proofs.Surface.Soundness
import Mathlib.Data.List.Nodup

/-! What one request comes to. A refused one leaves everything as it was and nobody is told; one
that is carried out changes what it owns, and every listener is told of just that. `Handled` says so
for all requests at once, and no later proof opens a request again. -/

namespace Heightfield

namespace SurfaceRequest

/-- Settings and flags are set; listeners come and go. -/
def mutates : SurfaceRequest → Bool
  | .listen | .unlisten _ => false
  | _ => true

/-- The request makes `s` into `s'`: what it owns has the value asked for, all else has stayed. -/
def Makes : SurfaceRequest → Surface → Surface → Prop
  | .setMin v, s, s' => s' = { s with min := v }
  | .setMax v, s, s' => s' = { s with max := v }
  | .setTime v, s, s' => s' = { s with time := v }
  | .setFunc source, s, s' =>
    ∃ evaluator, build source = .ok evaluator ∧ s' = { s with func := source, evaluator }
  | .start, s, s' => s' = { s with running := true, paused := false }
  | .pause, s, s' => s' = { s with paused := !s.paused }
  | .stop, s, s' => s' = { s with running := false, paused := false }
  | .listen, _, _ | .unlisten _, _, _ => False

end SurfaceRequest

namespace Surface

/-- One event for each flag in which two surfaces differ. -/
def flips (s s' : Surface) : List SurfaceEvent :=
  (if s'.running = s.running then [] else [.running]) ++
    (if s'.paused = s.paused then [] else [.paused])

/-- A surface that some requests leave of one whose settings were accepted. -/
def Reachable (s : Surface) : Prop :=
  ∃ settings s₀ requests, ofSettings settings = .ok s₀ ∧ s₀.after requests = s

end Surface

/-- What is to be told of a request that makes `s` into `s'`, before the closing event. -/
def SurfaceRequest.told : SurfaceRequest → Surface → Surface → List SurfaceEvent
  | .setMin _, _, _ => [.min]
  | .setMax _, _, _ => [.max]
  | .setTime _, _, _ => [.time]
  | .setFunc _, _, _ => [.func]
  | .start, s, s' | .pause, s, s' | .stop, s, s' => s.flips s'
  | .listen, _, _ | .unlisten _, _, _ => []

/-- The events that one listener hears. -/
def SurfaceOutcome.heardBy (o : SurfaceOutcome) (listener : Nat) : List SurfaceEvent :=
  (o.deliveries.filter (·.1 = listener)).map (·.2)

namespace Surface

/-- All that a request may come to. -/
inductive Handled (s : Surface) : SurfaceRequest → SurfaceOutcome → Prop
  | refused {r} (e : SurfaceError) (journal : Journal) (mutates : r.mutates = true) :
      Handled s r (s.refuse e journal)
  | carriedOut {r s'} (journal : Journal) (mutates : r.mutates = true) (makes : r.Makes s s') :
      Handled s r (s'.accept (r.told s s') journal)
  | listened : Handled s .listen s.listen
  | removed (listener : Nat) : Handled s (.unlisten listener) (s.unlisten listener)

variable {s : Surface} {r : SurfaceRequest}

theorem Handled.of_told {s' : Surface} {events : List SurfaceEvent} {journal : Journal}
    (hm : r.mutates = true) (hmakes : r.Makes s s') (htold : r.told s s' = events) :
    s.Handled r (s'.accept events journal) := by
  rw [← htold]
  exact .carriedOut journal hm hmakes

theorem store_handled {name : String} {event : SurfaceEvent} {checked : Except SurfaceError Float}
    {put : Float → Surface} (hm : r.mutates = true)
    (hput : ∀ v, checked = .ok v → r.Makes s (put v) ∧ r.told s (put v) = [event]) :
    s.Handled r (s.store name event checked put) := by
  cases checked with
  | error e => exact .refused e _ hm
  | ok v =>
    obtain ⟨hmakes, htold⟩ := hput v rfl
    exact .of_told hm hmakes htold

theorem checkRange_eq {v w : Float} (h : checkRange v = .ok w) : w = v := by
  unfold checkRange at h
  split at h
  · cases h
  · split at h <;> cases h
    rfl

theorem checkTime_eq {v w : Float} (h : checkTime v = .ok w) : w = v := by
  unfold checkTime at h
  split at h
  · cases h
  · split at h <;> cases h
    rfl

theorem handle_handled (s : Surface) (r : SurfaceRequest) : s.Handled r (s.handle r) := by
  cases r with
  | setMin v =>
    refine store_handled rfl fun w hw => ?_
    rw [checkRange_eq hw]
    exact ⟨rfl, rfl⟩
  | setMax v =>
    refine store_handled rfl fun w hw => ?_
    rw [checkRange_eq hw]
    exact ⟨rfl, rfl⟩
  | setTime v =>
    refine store_handled rfl fun w hw => ?_
    rw [checkTime_eq hw]
    exact ⟨rfl, rfl⟩
  | setFunc source =>
    simp only [handle, setFunc]
    cases hb : build source with
    | error e => exact .refused _ _ rfl
    | ok evaluator => exact .carriedOut _ rfl ⟨evaluator, hb, rfl⟩
  | start =>
    simp only [handle, start]
    split
    · exact .refused _ _ rfl
    · refine .of_told rfl rfl ?_
      cases hr : s.running <;> cases hp : s.paused <;> simp [SurfaceRequest.told, flips, hr, hp]
  | pause =>
    simp only [handle, pause]
    split
    · refine .of_told rfl rfl ?_
      simp [SurfaceRequest.told, flips]
    · exact .refused _ _ rfl
  | stop =>
    simp only [handle, stop]
    split
    · next hr =>
      refine .of_told rfl rfl ?_
      cases hp : s.paused <;> simp [SurfaceRequest.told, flips, hr, hp]
    · exact .refused _ _ rfl
  | listen => exact .listened
  | unlisten listener => exact .removed listener

theorem Reachable.sound (h : s.Reachable) : s.Sound := by
  obtain ⟨settings, s₀, requests, hs, rfl⟩ := h
  exact (ofSettings_sound hs).after requests

end Surface

namespace SurfaceRequest

variable {r : SurfaceRequest} {s s' : Surface}

theorem any_not_mem_told (r : SurfaceRequest) (s s' : Surface) : .any ∉ r.told s s' := by
  cases r with
  | start | pause | stop =>
    simp only [told, Surface.flips]
    split <;> split <;> simp
  | setMin | setMax | setTime | setFunc | listen | unlisten => simp [told]

/-- Who listens is not for these requests to change. -/
theorem Makes.listeners_eq (h : r.Makes s s') : s'.listeners = s.listeners := by
  cases r with
  | setFunc source =>
    obtain ⟨evaluator, -, rfl⟩ := h
    rfl
  | setMin | setMax | setTime | start | pause | stop =>
    cases h
    rfl
  | listen | unlisten => cases h

end SurfaceRequest

namespace SurfaceOutcome

variable {o : SurfaceOutcome} {listener : Nat}

theorem heardBy_eq (o : SurfaceOutcome) (listener : Nat) :
    o.heardBy listener =
      o.events.flatMap fun event => List.replicate (o.surface.listeners.count listener) event := by
  unfold heardBy deliveries
  rw [List.filter_flatMap, List.map_flatMap]
  congr 1
  funext event
  rw [List.filter_map, List.map_map, List.count, List.countP_eq_length_filter]
  exact List.map_const'

theorem heardBy_of_mem (hnodup : o.surface.listeners.Nodup) (h : listener ∈ o.surface.listeners) :
    o.heardBy listener = o.events := by
  simp [heardBy_eq, List.count_eq_one_of_mem hnodup h]

end SurfaceOutcome

namespace Surface

variable {s : Surface} {r : SurfaceRequest}

theorem Sound.nodup (h : s.Sound) : s.listeners.Nodup := h.listeners.imp Nat.ne_of_lt

/-- A request about settings or flags is refused as if it had never been made, or it changes what it
owns and nothing else; then every listener, in the order of registration, is told event by event
what has changed, and once that anything has. -/
theorem handle_all_or_nothing (hs : s.Reachable) (hr : r.mutates = true) :
    (∀ e, (s.handle r).reply = .error e →
      (s.handle r).surface = s ∧ (s.handle r).deliveries = []) ∧
    ∀ reply, (s.handle r).reply = .ok reply →
      r.Makes s (s.handle r).surface ∧
      SurfaceEvent.any ∉ r.told s (s.handle r).surface ∧
      s.listeners.Pairwise (· < ·) ∧
      (s.handle r).deliveries = (r.told s (s.handle r).surface ++ [SurfaceEvent.any]).flatMap
        (fun event => s.listeners.map fun listener => (listener, event)) ∧
      ∀ listener ∈ s.listeners,
        (s.handle r).heardBy listener = r.told s (s.handle r).surface ++ [.any] := by
  have hhandled := handle_handled s r
  generalize s.handle r = o at hhandled ⊢
  cases hhandled with
  | refused e journal => exact ⟨fun _ _ => ⟨rfl, rfl⟩, nofun⟩
  | @carriedOut _ s' journal mutates makes =>
    have hlisteners : s'.listeners = s.listeners := makes.listeners_eq
    refine ⟨nofun, fun _ _ => ⟨makes, r.any_not_mem_told s s', hs.sound.listeners, ?_, ?_⟩⟩
    · rw [← hlisteners]
      rfl
    · intro listener hl
      have hnodup := hs.sound.nodup
      rw [← hlisteners] at hl hnodup
      exact SurfaceOutcome.heardBy_of_mem hnodup hl
  | listened => cases hr
  | removed listener => cases hr

/-- A surface of `x`, stopped and without listeners. -/
def plain (evaluator : Evaluator) : Surface :=
  { min := -1.0, max := 1.0, time := 0.0, func := "x", evaluator }

theorem exists_plain : ∃ evaluator, ofSettings ⟨-1.0, 1.0, "x", 0.0⟩ = .ok (plain evaluator) := by
  have hmin : checkRange (-1.0) = .ok (-1.0) := by rfl
  have hmax : checkRange 1.0 = .ok 1.0 := by rfl
  have htime : checkTime 0.0 = .ok 0.0 := by rfl
  have hbuilt : (build "x").isOk = true := by decide +kernel
  cases he : build "x" with
  | error e =>
    rw [he] at hbuilt
    cases hbuilt
  | ok evaluator =>
    refine ⟨evaluator, ?_⟩
    simp only [ofSettings, hmin, hmax, htime, he]
    rfl

/-- A paused surface with two listeners is stopped: both flags fall. -/
theorem handle_all_or_nothing_stop : ∃ s : Surface, s.Reachable ∧
    SurfaceRequest.stop.mutates = true ∧ s.listeners = [0, 1] ∧
    SurfaceRequest.stop.Makes s (s.handle .stop).surface ∧
    (s.handle .stop).heardBy 1 = [.running, .paused, .any] := by
  obtain ⟨evaluator, h⟩ := exists_plain
  have hs : ((plain evaluator).after [.listen, .start, .listen, .pause]).Reachable :=
    ⟨_, _, _, h, rfl⟩
  have hdone := (handle_all_or_nothing hs (r := .stop) rfl).2 .done rfl
  have hmem : 1 ∈ [0, 1] := by decide
  exact ⟨_, hs, rfl, rfl, hdone.1, hdone.2.2.2.2 1 hmem⟩

end Surface

end Heightfield
