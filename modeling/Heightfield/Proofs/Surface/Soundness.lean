import Heightfield.Surface.Request

/-! What holds of a surface after any requests at all: its settings are in their ranges, its
evaluator is the one of its expression, only a running surface is paused, and no two listeners ever
get the same number. The step is one request; a sequence follows by induction. -/

namespace Heightfield

/-- A number between the two. -/
def Within (low high v : Float) : Prop := v.isNaN = false ∧ low ≤ v ∧ v ≤ high

namespace Surface

/-- What the requests come to, each of them made to the surface that the one before left. -/
def outcomes (s : Surface) : List SurfaceRequest → List SurfaceOutcome
  | [] => []
  | r :: rs => s.handle r :: (s.handle r).surface.outcomes rs

/-- The surface that the requests leave, refused ones among them. -/
def after (s : Surface) (requests : List SurfaceRequest) : Surface :=
  requests.foldl (fun s r => (s.handle r).surface) s

structure Sound (s : Surface) : Prop where
  min : Within (-1000.0) 1000.0 s.min
  max : Within (-1000.0) 1000.0 s.max
  time : Within 0.0 600.0 s.time
  evaluator : build s.func = .ok s.evaluator
  paused : s.paused = true → s.running = true
  listeners : s.listeners.Pairwise (· < ·)
  below : ∀ l ∈ s.listeners, l < s.nextListener

end Surface

/-- The number that the request was given, if it was to listen. -/
def SurfaceOutcome.given? (o : SurfaceOutcome) : Option Nat :=
  match o.reply with
  | .ok (.listening l) => some l
  | _ => none

theorem within_of_checkRange {v w : Float} (h : checkRange v = .ok w) :
    Within (-1000.0) 1000.0 w := by
  unfold checkRange at h
  split at h
  · cases h
  · next hnan =>
    split at h
    · next hin =>
      cases h
      exact ⟨Bool.eq_false_iff.2 hnan, hin⟩
    · cases h

theorem within_of_checkTime {v w : Float} (h : checkTime v = .ok w) : Within 0.0 600.0 w := by
  unfold checkTime at h
  split at h
  · cases h
  · next hnan =>
    split at h
    · next hin =>
      cases h
      exact ⟨Bool.eq_false_iff.2 hnan, hin⟩
    · cases h

theorem except_bind_eq_ok {ε α β : Type} {x : Except ε α} {f : α → Except ε β} {b : β} :
    (x >>= f) = .ok b ↔ ∃ a, x = .ok a ∧ f a = .ok b := by
  cases x with
  | error e => exact ⟨nofun, nofun⟩
  | ok a => exact ⟨fun h => ⟨a, rfl, h⟩, fun ⟨_, rfl, h⟩ => h⟩

theorem mapError_eq_ok {ε ε' α : Type} {f : ε → ε'} {x : Except ε α} {a : α} :
    x.mapError f = .ok a ↔ x = .ok a := by
  cases x with
  | error e => exact ⟨nofun, nofun⟩
  | ok b => exact ⟨fun h => congrArg Except.ok (Except.ok.inj h), fun h => congrArg _ h⟩

namespace Surface

variable {s : Surface}

theorem ofSettings_sound {settings : SurfaceSettings} (h : ofSettings settings = .ok s) :
    s.Sound := by
  simp only [ofSettings, except_bind_eq_ok, mapError_eq_ok] at h
  obtain ⟨min, hmin, max, hmax, time, htime, evaluator, hevaluator, h⟩ := h
  cases h
  exact ⟨within_of_checkRange hmin, within_of_checkRange hmax, within_of_checkTime htime,
    hevaluator, nofun, .nil, nofun⟩

theorem Sound.store (h : s.Sound) {name : String} {event : SurfaceEvent}
    {checked : Except SurfaceError Float} {put : Float → Surface}
    (hput : ∀ v, checked = .ok v → (put v).Sound) :
    (s.store name event checked put).surface.Sound := by
  cases checked with
  | error e => exact h
  | ok v => exact hput v rfl

theorem Sound.setFunc (h : s.Sound) (source : String) : (s.setFunc source).surface.Sound := by
  unfold Surface.setFunc
  cases hb : build source with
  | error e => exact h
  | ok evaluator => exact { h with evaluator := hb }

/-- A surface that differs in nothing but the two flags. -/
theorem Sound.flags (h : s.Sound) {running paused : Bool} (hp : paused = true → running = true) :
    Sound { s with running, paused } := { h with paused := hp }

theorem Sound.listen (h : s.Sound) : s.listen.surface.Sound := by
  refine { h with listeners := ?_, below := ?_ }
  · refine List.pairwise_append.2 ⟨h.listeners, List.pairwise_singleton _ _, ?_⟩
    intro l hl l' hl'
    rw [List.mem_singleton.1 hl']
    exact h.below l hl
  · intro l hl
    rcases List.mem_append.1 hl with hl | hl
    · exact Nat.lt_succ_of_lt (h.below l hl)
    · rw [List.mem_singleton.1 hl]
      exact Nat.lt_succ_self _

theorem Sound.unlisten (h : s.Sound) (l : Nat) : (s.unlisten l).surface.Sound :=
  { h with
    listeners := h.listeners.filter _
    below := fun _ hl => h.below _ (List.mem_filter.1 hl).1 }

/-- One request keeps a surface sound, whatever it asks for and whether or not it is refused. -/
theorem Sound.handle (h : s.Sound) (r : SurfaceRequest) : (s.handle r).surface.Sound := by
  cases r with
  | setMin v => exact h.store fun w hw => { h with min := within_of_checkRange hw }
  | setMax v => exact h.store fun w hw => { h with max := within_of_checkRange hw }
  | setTime v => exact h.store fun w hw => { h with time := within_of_checkTime hw }
  | setFunc source => exact h.setFunc source
  | start =>
    simp only [Surface.handle, Surface.start]
    split
    · exact h
    · exact h.flags fun _ => rfl
  | pause =>
    simp only [Surface.handle, Surface.pause]
    split
    · next hrunning => exact h.flags fun _ => hrunning
    · exact h
  | stop =>
    simp only [Surface.handle, Surface.stop]
    split
    · exact h.flags nofun
    · exact h
  | listen => exact h.listen
  | unlisten l => exact h.unlisten l

theorem Sound.after (h : s.Sound) (requests : List SurfaceRequest) : (s.after requests).Sound := by
  induction requests generalizing s with
  | nil => exact h
  | cons r rs ih => exact ih (h.handle r)

/-- The numbers given to listeners, in the order they were given. -/
def given (s : Surface) (requests : List SurfaceRequest) : List Nat :=
  (s.outcomes requests).filterMap (·.given?)

/-- The request was given no number, or it was given the next one. -/
def Counts (s : Surface) (o : SurfaceOutcome) : Prop :=
  (o.given? = none ∧ o.surface.nextListener = s.nextListener) ∨
    (o.given? = some s.nextListener ∧ o.surface.nextListener = s.nextListener + 1)

theorem store_counts {name : String} {event : SurfaceEvent} {checked : Except SurfaceError Float}
    {put : Float → Surface} (hput : ∀ v, (put v).nextListener = s.nextListener) :
    s.Counts (s.store name event checked put) := by
  cases checked with
  | error e => exact .inl ⟨rfl, rfl⟩
  | ok v => exact .inl ⟨rfl, hput v⟩

theorem handle_counts (s : Surface) (r : SurfaceRequest) : s.Counts (s.handle r) := by
  cases r with
  | setMin v => exact store_counts fun _ => rfl
  | setMax v => exact store_counts fun _ => rfl
  | setTime v => exact store_counts fun _ => rfl
  | setFunc source =>
    simp only [handle, setFunc]
    cases build source <;> exact .inl ⟨rfl, rfl⟩
  | start =>
    simp only [handle, start]
    split <;> exact .inl ⟨rfl, rfl⟩
  | pause =>
    simp only [handle, pause]
    split <;> exact .inl ⟨rfl, rfl⟩
  | stop =>
    simp only [handle, stop]
    split <;> exact .inl ⟨rfl, rfl⟩
  | listen => exact .inr ⟨rfl, rfl⟩
  | unlisten l => exact .inl ⟨rfl, rfl⟩

/-- Later numbers are larger, so none is given again. -/
theorem given_rises (s : Surface) (requests : List SurfaceRequest) :
    (∀ l ∈ s.given requests, s.nextListener ≤ l) ∧ (s.given requests).Pairwise (· < ·) := by
  induction requests generalizing s with
  | nil => exact ⟨nofun, .nil⟩
  | cons r rs ih =>
    obtain ⟨hlow, hrises⟩ := ih (s.handle r).surface
    rw [given, outcomes, List.filterMap_cons, ← given]
    rcases s.handle_counts r with ⟨hg, hn⟩ | ⟨hg, hn⟩
    · rw [hg]
      rw [hn] at hlow
      exact ⟨hlow, hrises⟩
    · rw [hg]
      rw [hn] at hlow
      refine ⟨List.forall_mem_cons.2 ⟨Nat.le_refl _, ?_⟩, List.pairwise_cons.2 ⟨hlow, hrises⟩⟩
      exact fun l hl => Nat.le_of_succ_le (hlow l hl)

/-- Whatever is asked of a surface whose settings were accepted, and in whatever order, what is left
is sound, and no listener was given the number of another. -/
theorem settings_stay_sound {settings : SurfaceSettings} (h : ofSettings settings = .ok s)
    (requests : List SurfaceRequest) :
    (s.after requests).Sound ∧ (s.given requests).Pairwise (· < ·) :=
  ⟨(ofSettings_sound h).after requests, (given_rises s requests).2⟩

/-- A surface of `x` that starts, pauses, refuses a time and gets two listeners. -/
theorem settings_stay_sound_paused : ∃ s, ofSettings ⟨-1.0, 1.0, "x", 0.0⟩ = .ok s ∧
    (s.after [.listen, .start, .unlisten 0, .pause, .setTime 900.0, .listen]).Sound ∧
    (s.given [.listen, .start, .unlisten 0, .pause, .setTime 900.0, .listen]).Pairwise (· < ·) := by
  have hmin : checkRange (-1.0) = .ok (-1.0) := by rfl
  have hmax : checkRange 1.0 = .ok 1.0 := by rfl
  have htime : checkTime 0.0 = .ok 0.0 := by rfl
  have hbuilt : (build "x").isOk = true := by decide +kernel
  cases he : build "x" with
  | error e =>
    rw [he] at hbuilt
    cases hbuilt
  | ok evaluator =>
    have h : ofSettings ⟨-1.0, 1.0, "x", 0.0⟩ =
        .ok { min := -1.0, max := 1.0, time := 0.0, func := "x", evaluator } := by
      simp only [ofSettings, hmin, hmax, htime, he]
      rfl
    exact ⟨_, h, settings_stay_sound h _⟩

end Surface

end Heightfield
