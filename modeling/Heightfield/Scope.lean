/-! The names bound around a place in an expression. A bound value takes a frame when the expression
is evaluated, a bound function none; `depth` counts the frames. Each entry knows whether a lookup
has found it since it was pushed. -/

namespace Heightfield

inductive Binding
  /-- The frame at `slot`, counted from the outermost. -/
  | value (slot : Nat)
  /-- An entry of the function table, and how many frames stood at its definition. -/
  | function (index arity depth : Nat)
deriving DecidableEq, Inhabited

structure ScopeEntry where
  name : String
  binding : Binding
  used : Bool := false
deriving DecidableEq, Inhabited

structure Scope where
  /-- The innermost first. -/
  entries : List ScopeEntry := []
  depth : Nat := 0
deriving DecidableEq, Inhabited

namespace Scope

def pushValue (s : Scope) (name : String) : Scope :=
  ⟨{ name, binding := .value s.depth } :: s.entries, s.depth + 1⟩

def pushFunction (s : Scope) (name : String) (index arity : Nat) : Scope :=
  { s with entries := { name, binding := .function index arity s.depth } :: s.entries }

/-- Removes the innermost entry and says whether it was used. -/
def pop (s : Scope) : Bool × Scope :=
  match s.entries with
  | [] => (false, s)
  | entry :: entries =>
    match entry.binding with
    | .value _ => (entry.used, ⟨entries, s.depth - 1⟩)
    | .function .. => (entry.used, { s with entries })

/-- Marks the innermost entry of that name as used. -/
def markUsed (name : String) : List ScopeEntry → List ScopeEntry
  | [] => []
  | entry :: entries =>
    if entry.name = name then { entry with used := true } :: entries
    else entry :: markUsed name entries

/-- What a name is bound to. An inner binding hides the outer ones; the one found counts as used. -/
def lookup (s : Scope) (name : String) : Option Binding × Scope :=
  ((s.entries.find? (·.name = name)).map (·.binding), { s with entries := markUsed name s.entries })

/-- How many frames lie above the frame at `slot`. -/
def hopsTo (s : Scope) (slot : Nat) : Nat := s.depth - 1 - slot

/-- The outermost first. -/
def names (s : Scope) : List String := (s.entries.map (·.name)).reverse

theorem pop_pushValue (s : Scope) (name : String) : (s.pushValue name).pop = (false, s) := rfl

theorem pop_pushFunction (s : Scope) (name : String) (index arity : Nat) :
    (s.pushFunction name index arity).pop = (false, s) := rfl

/-- Nothing but a mark changes. -/
theorem map_markUsed {α : Type} {f : ScopeEntry → α} (hf : ∀ e, f { e with used := true } = f e)
    (name : String) (entries : List ScopeEntry) :
    (markUsed name entries).map f = entries.map f := by
  induction entries with
  | nil => rfl
  | cons entry entries ih =>
    rw [markUsed]
    split
    · rw [List.map_cons, List.map_cons, hf]
    · rw [List.map_cons, List.map_cons, ih]

theorem names_lookup (s : Scope) (name : String) : (s.lookup name).2.names = s.names :=
  congrArg List.reverse (map_markUsed (fun _ => rfl) name s.entries)

theorem depth_lookup (s : Scope) (name : String) : (s.lookup name).2.depth = s.depth := rfl

end Scope

end Heightfield
