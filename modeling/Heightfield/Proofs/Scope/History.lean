import Heightfield.Proofs.Scope

/-! What a scope tells of its history. An entry is known by how many others it stands on as long as
nothing takes it away, so its mark says whether one of the lookups since its push has found it. -/

namespace Heightfield.Scope

/-- Behind `before`, `push` puts `entry` on `height` others, unused, and nothing in `since` takes it
away. -/
structure Pushed (before : List ScopeStep) (push : ScopeStep) (since : List ScopeStep)
    (entry : ScopeEntry) (height : Nat) : Prop where
  rests : (after before).entries.length = height
  made : (after (before ++ [push])).entries =
    { entry with used := false } :: (after before).entries
  stands : ∀ part, part <+: since → ∃ still below,
    still :: below <:+ (after (before ++ push :: part)).entries ∧
      still.name = entry.name ∧ still.binding = entry.binding ∧ below.length = height

/-- One of the lookups in `since` finds the entry that `push` put on `height` others. -/
def LookedUp (before : List ScopeStep) (push : ScopeStep) (since : List ScopeStep)
    (height : Nat) : Prop :=
  ∃ part name later, since = part ++ .lookup name :: later ∧
    Finds (after (before ++ push :: part)).entries name height

variable {before since steps : List ScopeStep} {push x : ScopeStep}
  {entry old : ScopeEntry} {below others : List ScopeEntry} {height : Nat}

theorem not_lookedUp_nil : ¬ LookedUp before push [] height := by
  rintro ⟨part, name, later, hsplit, -⟩
  cases part <;> cases hsplit

theorem lookedUp_concat : LookedUp before push (since ++ [x]) height ↔
    LookedUp before push since height ∨
      ∃ name, x = .lookup name ∧ Finds (after (before ++ push :: since)).entries name height := by
  constructor
  · rintro ⟨part, name, later, hsplit, hfinds⟩
    rcases List.eq_nil_or_concat later with rfl | ⟨later, y, rfl⟩
    · obtain ⟨rfl, hx⟩ := List.append_inj' hsplit rfl
      cases hx
      exact .inr ⟨name, rfl, hfinds⟩
    · rw [List.concat_eq_append, ← List.cons_append, ← List.append_assoc] at hsplit
      obtain ⟨rfl, -⟩ := List.append_inj' hsplit rfl
      exact .inl ⟨part, name, later, rfl, hfinds⟩
  · rintro (⟨part, name, later, rfl, hfinds⟩ | ⟨name, rfl, hfinds⟩)
    · refine ⟨part, name, later ++ [x], ?_, hfinds⟩
      rw [List.append_assoc, List.cons_append]
    · exact ⟨since, name, [], rfl, hfinds⟩

namespace Pushed

theorem new (hmade : (after (before ++ [push])).entries = entry :: (after before).entries)
    (hunused : entry.used = false) :
    Pushed before push [] entry (after before).entries.length := by
  have hentry : { entry with used := false } = entry := by rw [← hunused]
  refine ⟨rfl, ?_, fun part hpart => ?_⟩
  · rw [hentry]
    exact hmade
  · obtain rfl := List.prefix_nil.1 hpart
    exact ⟨entry, (after before).entries, hmade ▸ List.suffix_rfl, rfl, rfl, rfl⟩

theorem concat (h : Pushed before push since old others.length)
    (hstays : Stays entry below old others)
    (hstands : entry :: below <:+ (after (before ++ push :: (since ++ [x]))).entries) :
    Pushed before push (since ++ [x]) entry below.length := by
  refine ⟨h.rests.trans hstays.height.symm, ?_, fun part hpart => ?_⟩
  · rw [h.made, hstays.name, hstays.binding]
  · rcases List.prefix_concat_iff.1 hpart with rfl | hpart
    · exact ⟨entry, below, hstands, rfl, rfl, rfl⟩
    · obtain ⟨still, rest, hsuffix, hname, hbinding, hheight⟩ := h.stands part hpart
      exact ⟨still, rest, hsuffix, hname.trans hstays.name.symm,
        hbinding.trans hstays.binding.symm, hheight.trans hstays.height.symm⟩

end Pushed

/-- Each entry that stands was pushed at some time, stands since then, and is marked if it was
looked up since then. -/
theorem exists_pushed (h : entry :: below <:+ (after steps).entries) :
    ∃ before push since, steps = before ++ push :: since ∧
      Pushed before push since entry below.length ∧
      (entry.used = true ↔ LookedUp before push since below.length) := by
  -- By the last step: the entry is new, or one of those before it, and then its `since` grows.
  induction steps using List.reverseRecOn generalizing entry below with
  | nil => exact absurd h.length_le (Nat.not_succ_le_zero _)
  | append_singleton steps x ih =>
    have hstep := h
    rw [after_concat] at hstep
    cases origin (after steps) x hstep with
    | pushed top made unused depth =>
      subst top
      rw [← after_concat] at made
      refine ⟨steps, x, [], rfl, .new made unused, ?_⟩
      simp [unused, not_lookedUp_nil]
    | kept old others stood stays used =>
      obtain ⟨before, push, since, rfl, hpushed, hused⟩ := ih stood
      have hsplit : before ++ push :: since ++ [x] = before ++ push :: (since ++ [x]) := by
        rw [List.append_assoc, List.cons_append]
      rw [hsplit] at h ⊢
      refine ⟨before, push, since ++ [x], rfl, hpushed.concat stays h, ?_⟩
      rw [used, hused, stays.height, lookedUp_concat]

/-- The depth and what the entries hold are counts of the values among them. -/
structure Counts (s : Scope) : Prop where
  depth : s.depth = s.entries.countP ScopeEntry.isValue
  slots : s.entries.reverse.filterMap ScopeEntry.slot? = List.range s.depth
  definitions : ∀ entry below index arity depth, entry :: below <:+ s.entries →
    entry.binding = .function index arity depth → depth = below.countP ScopeEntry.isValue

theorem Sound.counts {s : Scope} (h : s.Sound) : s.Counts := by
  refine ⟨h.depth, h.slots, fun entry below index arity depth hentry hbinding => ?_⟩
  have hlevel := h.levels hentry
  rwa [hbinding] at hlevel

/-- A lookup has the binding of the innermost entry with that name. If that is a value, its frame
is there, below the frames of the values further in. -/
structure Answers (s : Scope) (name : String) : Prop where
  found : ∀ b, (s.lookup name).1 = some b ↔
    ∃ above entry below, Innermost s.entries name above entry below ∧ entry.binding = b
  missed : (s.lookup name).1 = none ↔ ∀ entry ∈ s.entries, entry.name ≠ name
  hops : ∀ above entry below slot, Innermost s.entries name above entry below →
    entry.binding = .value slot →
      slot < s.depth ∧ s.hopsTo slot = above.countP ScopeEntry.isValue

theorem Sound.answers {s : Scope} (h : s.Sound) (name : String) : s.Answers name :=
  ⟨fun _ => lookup_eq_some, lookup_eq_none, fun _ _ _ _ => h.hops⟩

theorem pop_used {s : Scope} (h : s.entries = entry :: below) : s.pop.1 = entry.used := by
  obtain ⟨entries, depth⟩ := s
  subst h
  obtain ⟨name, binding, used⟩ := entry
  cases binding <;> rfl

/-- Whatever was done to a scope since it was empty: its entries are the pushes that stand, its
counts are right, names find the innermost entry, and the innermost entry of all is what a pop takes
away, telling whether a lookup has found it since its push. -/
theorem after_tells_history (steps : List ScopeStep) :
    (after steps).entries.map ScopeEntry.push = ScopeStep.standing steps ∧
    (after steps).Counts ∧ (∀ name, (after steps).Answers name) ∧
    match (after steps).entries with
    | [] => (after steps).pop = (false, after steps)
    | entry :: below => (after steps).pop.2.entries = below ∧
      ∃ before push since, steps = before ++ push :: since ∧
        Pushed before push since entry below.length ∧
        ((after steps).pop.1 = true ↔ LookedUp before push since below.length) := by
  refine ⟨map_push_after steps, (sound_after steps).counts, (sound_after steps).answers, ?_⟩
  split
  next hempty => rw [pop, hempty]
  next entry below hentries =>
    constructor
    · rw [pop_entries, hentries, List.tail_cons]
    · rw [pop_used hentries]
      exact exists_pushed (hentries ▸ List.suffix_rfl)

/-- The lookup finds the inner one of two equal names, so the outer one is unused when its turn
comes. The pop before all takes nothing away. -/
theorem shadowedName_unused :
    (after [.pop, .pushValue "a", .pushValue "a", .lookup "a", .pop]).pop = (false, {}) ∧
    ∃ before push since,
      [.pop, .pushValue "a", .pushValue "a", .lookup "a", .pop] = before ++ push :: since ∧
        Pushed before push since ⟨"a", .value 0, false⟩ 0 ∧ ¬ LookedUp before push since 0 := by
  have hpop : (after [.pop, .pushValue "a", .pushValue "a", .lookup "a", .pop]).pop =
      (false, {}) := by decide
  obtain ⟨-, before, push, since, hsplit, hpushed, hused⟩ :=
    (after_tells_history [.pop, .pushValue "a", .pushValue "a", .lookup "a", .pop]).2.2.2
  rw [hpop] at hused
  exact ⟨hpop, before, push, since, hsplit, hpushed, fun h => Bool.noConfusion (hused.2 h)⟩

end Heightfield.Scope
