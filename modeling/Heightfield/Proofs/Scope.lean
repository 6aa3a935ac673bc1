import Heightfield.Scope
import Mathlib.Data.List.Induction

/-! The scope step by step. Each entry that stands after a step was pushed by it or stood before it,
and then only its mark of use can have changed. So the frames are counted rightly throughout: each
entry knows how many of those below it take one. -/

namespace Heightfield

/-- What is done to a scope. -/
inductive ScopeStep
  | pushValue (name : String)
  | pushFunction (name : String) (index arity : Nat)
  | pop
  | lookup (name : String)
deriving DecidableEq

/-- The pushes that no pop has taken back, the innermost first. -/
def ScopeStep.standing (steps : List ScopeStep) : List ScopeStep :=
  steps.foldl (fun pushes x =>
    match x with
    | .pushValue _ | .pushFunction .. => x :: pushes
    | .pop => pushes.tail
    | .lookup _ => pushes) []

/-- How many frames stood when the name was bound. -/
def Binding.depth : Binding → Nat
  | .value slot => slot
  | .function _ _ depth => depth

namespace ScopeEntry

/-- A bound value takes a frame. -/
def isValue (entry : ScopeEntry) : Bool :=
  match entry.binding with
  | .value _ => true
  | .function .. => false

def slot? (entry : ScopeEntry) : Option Nat :=
  match entry.binding with
  | .value slot => some slot
  | .function .. => none

/-- The push that makes such an entry. -/
def push (entry : ScopeEntry) : ScopeStep :=
  match entry.binding with
  | .value _ => .pushValue entry.name
  | .function index arity _ => .pushFunction entry.name index arity

end ScopeEntry

namespace Scope

def step (s : Scope) : ScopeStep → Scope
  | .pushValue name => s.pushValue name
  | .pushFunction name index arity => s.pushFunction name index arity
  | .pop => s.pop.2
  | .lookup name => (s.lookup name).2

/-- The empty scope after some steps. -/
def after (steps : List ScopeStep) : Scope := steps.foldl step {}

theorem after_concat (steps : List ScopeStep) (x : ScopeStep) :
    after (steps ++ [x]) = (after steps).step x := by
  rw [after, List.foldl_append]
  rfl

/-- Of the entries with that name, `entry` is the innermost: `above` are further in, `below` further
out. -/
structure Innermost (entries : List ScopeEntry) (name : String) (above : List ScopeEntry)
    (entry : ScopeEntry) (below : List ScopeEntry) : Prop where
  split : entries = above ++ entry :: below
  named : entry.name = name
  hidden : ∀ other ∈ above, other.name ≠ name

/-- A name finds the entry over `height` others. -/
def Finds (entries : List ScopeEntry) (name : String) (height : Nat) : Prop :=
  ∃ above entry below, Innermost entries name above entry below ∧ below.length = height

variable {s : Scope} {name : String} {entry : ScopeEntry} {below entries : List ScopeEntry}
  {height : Nat}

theorem lookup_eq_some {b : Binding} : (s.lookup name).1 = some b ↔
    ∃ above entry below, Innermost s.entries name above entry below ∧ entry.binding = b := by
  simp only [lookup, Option.map_eq_some_iff, List.find?_eq_some_iff_append, decide_eq_true_eq,
    Bool.not_eq_true', decide_eq_false_iff_not]
  constructor
  · rintro ⟨entry, ⟨hnamed, above, below, hsplit, hhidden⟩, hb⟩
    exact ⟨above, entry, below, ⟨hsplit, hnamed, hhidden⟩, hb⟩
  · rintro ⟨above, entry, below, ⟨hsplit, hnamed, hhidden⟩, hb⟩
    exact ⟨entry, ⟨hnamed, above, below, hsplit, hhidden⟩, hb⟩

theorem lookup_eq_none : (s.lookup name).1 = none ↔ ∀ entry ∈ s.entries, entry.name ≠ name := by
  simp [lookup]

theorem Finds.lt (h : Finds entries name height) : height < entries.length := by
  obtain ⟨above, entry, below, ⟨rfl, -, -⟩, rfl⟩ := h
  rw [List.length_append, List.length_cons]
  omega

theorem finds_cons_self (h : entry.name = name) :
    Finds (entry :: below) name height ↔ height = below.length := by
  constructor
  · rintro ⟨above, e, rest, ⟨hsplit, hnamed, hhidden⟩, rfl⟩
    cases above with
    | nil =>
      cases hsplit
      rfl
    | cons a above =>
      cases hsplit
      exact absurd h (hhidden _ List.mem_cons_self)
  · rintro rfl
    exact ⟨[], entry, below, ⟨rfl, h, nofun⟩, rfl⟩

theorem finds_cons_ne (h : entry.name ≠ name) :
    Finds (entry :: below) name height ↔ Finds below name height := by
  constructor
  · rintro ⟨above, e, rest, ⟨hsplit, hnamed, hhidden⟩, hheight⟩
    cases above with
    | nil =>
      cases hsplit
      exact absurd hnamed h
    | cons a above =>
      cases hsplit
      exact ⟨above, e, rest, ⟨rfl, hnamed, fun o ho => hhidden o (List.mem_cons_of_mem _ ho)⟩,
        hheight⟩
  · rintro ⟨above, e, rest, ⟨rfl, hnamed, hhidden⟩, hheight⟩
    exact ⟨entry :: above, e, rest, ⟨rfl, hnamed, List.forall_mem_cons.2 ⟨h, hhidden⟩⟩, hheight⟩

/-- `entry` over `below` is `old` over `others`, but for marks of use. -/
structure Stays (entry : ScopeEntry) (below : List ScopeEntry) (old : ScopeEntry)
    (others : List ScopeEntry) : Prop where
  name : entry.name = old.name
  binding : entry.binding = old.binding
  height : below.length = others.length
  values : below.countP ScopeEntry.isValue = others.countP ScopeEntry.isValue

theorem Stays.refl (entry : ScopeEntry) (below : List ScopeEntry) :
    Stays entry below entry below := ⟨rfl, rfl, rfl, rfl⟩

theorem length_markUsed (name : String) (entries : List ScopeEntry) :
    (markUsed name entries).length = entries.length := by
  have h := congrArg List.length (map_markUsed (f := ScopeEntry.name) (fun _ => rfl) name entries)
  rwa [List.length_map, List.length_map] at h

theorem countP_markUsed (name : String) (entries : List ScopeEntry) :
    (markUsed name entries).countP ScopeEntry.isValue = entries.countP ScopeEntry.isValue := by
  have hmap := map_markUsed (f := ScopeEntry.isValue) (fun _ => rfl) name entries
  have h := congrArg (List.countP id) hmap
  rwa [List.countP_map, List.countP_map, Function.id_comp] at h

/-- A lookup marks the entry that it finds and no other. -/
theorem stays_of_markUsed (h : entry :: below <:+ markUsed name entries) :
    ∃ old others, old :: others <:+ entries ∧ Stays entry below old others ∧
      (entry.used = true ↔ old.used = true ∨ Finds entries name others.length) := by
  induction entries with
  | nil => exact absurd h.length_le (Nat.not_succ_le_zero _)
  | cons e entries ih =>
    rw [markUsed] at h
    split at h
    next hname =>
      rcases List.suffix_cons_iff.1 h with h | h
      · cases h
        refine ⟨e, _, List.suffix_rfl, ⟨rfl, rfl, rfl, rfl⟩, ?_⟩
        simp [finds_cons_self hname]
      · -- The entry found hides those below it from the lookup.
        have hlt : below.length < entries.length := h.length_le
        refine ⟨entry, below, h.trans (List.suffix_cons e entries), .refl entry below, ?_⟩
        rw [finds_cons_self hname]
        simp [Nat.ne_of_lt hlt]
    next hname =>
      rcases List.suffix_cons_iff.1 h with h | h
      · cases h
        refine ⟨_, entries, List.suffix_rfl,
          ⟨rfl, rfl, length_markUsed name entries, countP_markUsed name entries⟩, ?_⟩
        have hnot : ¬ Finds entries name entries.length := fun hf => Nat.lt_irrefl _ hf.lt
        simp [finds_cons_ne hname, hnot]
      · obtain ⟨old, others, hsuffix, hstays, hused⟩ := ih h
        rw [← finds_cons_ne hname] at hused
        exact ⟨old, others, hsuffix.trans (List.suffix_cons e entries), hstays, hused⟩

/-- Where an entry comes from that stands after a step. -/
inductive Origin (s : Scope) (x : ScopeStep) (entry : ScopeEntry) (below : List ScopeEntry) : Prop
  | pushed (top : below = s.entries) (made : (s.step x).entries = entry :: s.entries)
      (unused : entry.used = false) (depth : entry.binding.depth = s.depth)
  | kept (old : ScopeEntry) (others : List ScopeEntry) (stood : old :: others <:+ s.entries)
      (stays : Stays entry below old others)
      (used : entry.used = true ↔
        old.used = true ∨ ∃ name, x = .lookup name ∧ Finds s.entries name others.length)

/-- What stood before a step that looks nothing up is as it was. -/
theorem Origin.of_suffix {x : ScopeStep} (h : entry :: below <:+ s.entries)
    (hx : ∀ name, x ≠ .lookup name) : Origin s x entry below := by
  refine .kept entry below h (.refl entry below) ⟨.inl, ?_⟩
  rintro (h | ⟨name, hname, -⟩)
  · exact h
  · exact absurd hname (hx name)

theorem pop_entries (s : Scope) : s.pop.2.entries = s.entries.tail := by
  obtain ⟨entries, depth⟩ := s
  cases entries with
  | nil => rfl
  | cons e entries =>
    obtain ⟨name, binding, used⟩ := e
    cases binding <;> rfl

theorem origin (s : Scope) (x : ScopeStep) (h : entry :: below <:+ (s.step x).entries) :
    Origin s x entry below := by
  cases x with
  | pushValue n =>
    rcases List.suffix_cons_iff.1 h with h | h
    · cases h
      exact .pushed rfl rfl rfl rfl
    · exact .of_suffix h nofun
  | pushFunction n index arity =>
    rcases List.suffix_cons_iff.1 h with h | h
    · cases h
      exact .pushed rfl rfl rfl rfl
    · exact .of_suffix h nofun
  | pop =>
    rw [step, pop_entries] at h
    exact .of_suffix (h.trans (List.tail_suffix s.entries)) nofun
  | lookup n =>
    obtain ⟨old, others, hsuffix, hstays, hused⟩ := stays_of_markUsed h
    refine .kept old others hsuffix hstays ?_
    simpa using hused

/-- The entries are the pushes that stand. -/
theorem map_push_after (steps : List ScopeStep) :
    (after steps).entries.map ScopeEntry.push = ScopeStep.standing steps := by
  induction steps using List.reverseRecOn with
  | nil => rfl
  | append_singleton steps x ih =>
    rw [after_concat, ScopeStep.standing, List.foldl_append, ← ScopeStep.standing, ← ih]
    cases x with
    | pushValue name => rfl
    | pushFunction name index arity => rfl
    | pop =>
      rw [step, pop_entries, List.map_tail]
      rfl
    | lookup name => exact map_markUsed (fun _ => rfl) name _

/-- The frames are counted rightly, now and at each entry when it was made. -/
structure Sound (s : Scope) : Prop where
  depth : s.depth = s.entries.countP ScopeEntry.isValue
  levels : ∀ {entry below}, entry :: below <:+ s.entries →
    entry.binding.depth = below.countP ScopeEntry.isValue

namespace Sound

theorem depth_step (h : s.Sound) (x : ScopeStep) :
    (s.step x).depth = (s.step x).entries.countP ScopeEntry.isValue := by
  have hdepth := h.depth
  cases x with
  | pushValue n =>
    simp only [step, pushValue, List.countP_cons, ScopeEntry.isValue, if_true]
    omega
  | pushFunction n index arity =>
    simp only [step, pushFunction, List.countP_cons, ScopeEntry.isValue, Bool.false_eq_true,
      if_false]
    omega
  | pop =>
    obtain ⟨entries, depth⟩ := s
    cases entries with
    | nil => exact hdepth
    | cons e entries =>
      obtain ⟨name, binding, used⟩ := e
      cases binding <;>
        simp only [step, pop, List.countP_cons, ScopeEntry.isValue, Bool.false_eq_true, if_true,
          if_false] at hdepth ⊢ <;> omega
  | lookup n =>
    rw [step, depth_lookup, hdepth]
    exact (countP_markUsed n s.entries).symm

theorem step (h : s.Sound) (x : ScopeStep) : (s.step x).Sound := by
  refine ⟨h.depth_step x, fun {entry below} hentry => ?_⟩
  cases origin s x hentry with
  | pushed top made unused depth => rw [depth, top, h.depth]
  | kept old others stood stays used => rw [stays.binding, stays.values, h.levels stood]

/-- From the outermost, the values have the frames in order. -/
theorem slots (h : s.Sound) :
    s.entries.reverse.filterMap ScopeEntry.slot? = List.range s.depth := by
  have hlevels := @h.levels
  rw [h.depth]
  generalize s.entries = entries at hlevels
  induction entries with
  | nil => rfl
  | cons e entries ih =>
    have hbelow := ih fun {entry below} h => hlevels (h.trans (List.suffix_cons e entries))
    have he := hlevels (List.suffix_refl (e :: entries))
    rw [List.reverse_cons, List.filterMap_append, hbelow]
    obtain ⟨name, binding, used⟩ := e
    cases binding with
    | value slot =>
      rw [List.countP_cons_of_pos rfl, List.range_succ]
      exact congrArg (fun n => List.range _ ++ [n]) he
    | function index arity depth => exact List.append_nil _

/-- The frame of a value found lies below those of the values further in. -/
theorem hops {above : List ScopeEntry} {slot : Nat} (h : s.Sound)
    (hinnermost : Innermost s.entries name above entry below)
    (hslot : entry.binding = .value slot) :
    slot < s.depth ∧ s.hopsTo slot = above.countP ScopeEntry.isValue := by
  have hlevel : slot = below.countP ScopeEntry.isValue := by
    have hentry := h.levels (hinnermost.split ▸ List.suffix_append above (entry :: below))
    rwa [hslot] at hentry
  have hvalue : entry.isValue = true := by
    rw [ScopeEntry.isValue, hslot]
  have hdepth := h.depth
  rw [hinnermost.split, List.countP_append, List.countP_cons_of_pos hvalue] at hdepth
  rw [hopsTo]
  omega

end Sound

theorem sound_after (steps : List ScopeStep) : (after steps).Sound := by
  induction steps using List.reverseRecOn with
  | nil => exact ⟨rfl, fun h => absurd h.length_le (Nat.not_succ_le_zero _)⟩
  | append_singleton steps x ih =>
    rw [after_concat]
    exact ih.step x

end Scope

end Heightfield
