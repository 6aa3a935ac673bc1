import Heightfield.Proofs.Addressing.Placement
import Heightfield.Proofs.Expr.Nodes
import Heightfield.Proofs.Meaning

/-! An evaluation without end is one of a function that calls itself. Where none does, the functions
can be put in the order in which their bodies are completed, and every call goes to one completed
before: so calls nest no deeper than there are functions. -/

namespace Heightfield

namespace Expr

mutual

/-- The names that calls in the expression take from around it, each as often as it is called. -/
def outerCalls : Expr → List String
  | number _ _ | reference _ _ => []
  | call n args _ => n.name :: outerCallsAll args
  | unary _ _ operand _ => operand.outerCalls
  | binary _ left right _ => left.outerCalls ++ right.outerCalls
  | binding n bound body _ => bound.outerCalls ++ body.outerCalls.filter (· ≠ n.name)
  | function n params body context _ =>
    (body.outerCalls.filter (· ∉ params.map (·.name)) ++ context.outerCalls).filter (· ≠ n.name)
  | conditional condition positive negative _ =>
    condition.outerCalls ++ positive.outerCalls ++ negative.outerCalls

def outerCallsAll : List Expr → List String
  | [] => []
  | e :: es => e.outerCalls ++ outerCallsAll es

end

/-- A function whose body, or the body of a function in it, calls the function itself. -/
def CallsItself : Expr → Prop
  | function n params body _ _ => n.name ∈ body.outerCalls.filter (· ∉ params.map (·.name))
  | _ => False

def Recursive (e : Expr) : Prop := ∃ node ∈ e.nodes, node.CallsItself

end Expr

/-- From `depth` calls on, a run from any counter ends, and always in the same way. -/
def Steady {α : Type} (depth : Nat) (x : Nat → Run α) : Prop :=
  ∀ n, ∃ a n', ∀ d ≥ depth, x d n = .ok a n'

namespace Steady

variable {α β : Type} {k k' : Nat} {x : Nat → Run α} {f : Nat → α → Run β}

theorem pure (a : α) : Steady k fun _ => Pure.pure a := fun n => ⟨a, n, fun _ _ => rfl⟩

theorem mono (h : Steady k x) (hk : k ≤ k') : Steady k' x := by
  intro n
  obtain ⟨a, n', ha⟩ := h n
  exact ⟨a, n', fun d hd => ha d (Nat.le_trans hk hd)⟩

theorem bind (hx : Steady k x) (hf : ∀ a, Steady k fun d => f d a) :
    Steady k fun d => x d >>= f d := by
  intro n
  obtain ⟨a, n', ha⟩ := hx n
  obtain ⟨b, n'', hb⟩ := hf a n'
  exact ⟨b, n'', fun d hd => (bind_of_ok (ha d hd)).trans (hb d hd)⟩

end Steady

section

variable (program : Program) (draws : Draws) (point : Point)

/-- The body of function `index` ends on all frames. -/
def Ends (depth index : Nat) : Prop :=
  ∀ frames, Steady depth fun d => program.enter draws point d index frames

/-- All functions that `s` has for these names end. -/
def EndsAll (depth : Nat) (s : Scope) (names : List String) : Prop :=
  ∀ name ∈ names, ∀ index arity above,
    (s.lookup name).1 = some (.function index arity above) → Ends program draws point depth index

variable {program draws point} {k k' : Nat} {s : Scope} {names names' : List String}

/-- A call counts for one more than what the body needs. -/
theorem Ends.of_entry {index : Nat} {body : Code} (entry : program.functions[index]? = some body)
    (h : ∀ frames, Steady k fun d => body.run draws point (program.enter draws point d) frames) :
    Ends program draws point (k + 1) index := by
  intro frames n
  obtain ⟨v, n', hv⟩ := h frames n
  refine ⟨v, n', fun d hd => ?_⟩
  obtain ⟨d, rfl⟩ : ∃ d', d = d' + 1 := ⟨d - 1, by omega⟩
  change program.enter draws point (d + 1) index frames n = _
  rw [Program.enter, entry]
  exact hv d (by omega)

theorem EndsAll.mono (h : EndsAll program draws point k s names) (hk : k ≤ k')
    (hsub : ∀ name ∈ names', name ∈ names) : EndsAll program draws point k' s names' :=
  fun name hname index arity above hl frames =>
    (h name (hsub name hname) index arity above hl frames).mono hk

theorem EndsAll.pushValue {n : String}
    (h : EndsAll program draws point k s (names.filter (· ≠ n))) :
    EndsAll program draws point k (s.pushValue n) names := by
  intro name hname index arity above hl
  rw [Scope.lookup_pushValue] at hl
  by_cases hn : n = name
  · rw [if_pos hn] at hl
    cases hl
  · rw [if_neg hn] at hl
    exact h name (List.mem_filter.2 ⟨hname, decide_eq_true (Ne.symm hn)⟩) index arity above hl

theorem EndsAll.pushValues {params : List Ident}
    (h : EndsAll program draws point k s (names.filter (· ∉ params.map (·.name)))) :
    EndsAll program draws point k (s.pushValues params) names := by
  induction params generalizing s with
  | nil => exact h.mono (Nat.le_refl k) fun name hname => by simpa using hname
  | cons p ps ih =>
    refine ih (EndsAll.pushValue (h.mono (Nat.le_refl k) fun name hname => ?_))
    simp only [List.mem_filter, decide_eq_true_eq, List.map_cons, List.mem_cons, not_or] at hname ⊢
    exact ⟨hname.1.1, hname.2, hname.1.2⟩

theorem EndsAll.pushFunction {n : String} {index arity : Nat}
    (h : EndsAll program draws point k s (names.filter (· ≠ n)))
    (hn : n ∈ names → Ends program draws point k index) :
    EndsAll program draws point k (s.pushFunction n index arity) names := by
  intro name hname index' arity' above hl
  rw [Scope.lookup_pushFunction] at hl
  by_cases he : n = name
  · rw [if_pos he] at hl
    cases hl
    exact hn (he ▸ hname)
  · rw [if_neg he] at hl
    exact h name (List.mem_filter.2 ⟨hname, decide_eq_true (Ne.symm he)⟩) index' arity' above hl

variable {random : Bool}

mutual

/-- The code of an expression ends where the functions end that the expression calls from around it;
those that it defines end one after the other. -/
theorem run_steady (e : Expr) : ∀ {s : Scope} {code : Code} (k : Nat) (frames : Frames),
    Lowers program.functions random s e code → (∀ node ∈ e.nodes, ¬ node.CallsItself) →
      EndsAll program draws point k s e.outerCalls →
        Steady (k + e.functionNodes) fun d =>
          code.run draws point (program.enter draws point d) frames := by
  intro s code k frames hl hr hs
  cases hl with
  | number => exact Steady.pure _
  | slot found => exact Steady.pure _
  | coordinate free found => exact Steady.pure _
  | constant free other found => exact Steady.pure _
  | @call s n args sp index depth codes found parts =>
    have hargs := runAll_steady args k frames parts
      (fun node hnode => hr node (List.mem_cons_of_mem _ hnode))
      (hs.mono (Nat.le_refl k) fun _ => List.mem_cons_of_mem _)
    have hcall := hs n.name List.mem_cons_self _ _ _ found
    exact hargs.bind fun values => (hcall _).mono (Nat.le_add_right k _)
  | @math s n arg sp f code free other found part =>
    have harg := run_steady arg k frames part
      (fun node hnode => hr node (by simp [Expr.nodes, Expr.nodesAll, hnode]))
      (hs.mono (Nat.le_refl k) fun name hname => by
        simp [Expr.outerCalls, Expr.outerCallsAll, hname])
    exact harg.bind fun v => Steady.pure _
  | rand allowed => exact fun n => ⟨draws n, n + 1, fun _ _ => rfl⟩
  | @plus s operand sp code part =>
    exact run_steady operand k frames part
      (fun node hnode => hr node (List.mem_cons_of_mem _ hnode)) hs
  | @minus s operand sp code part =>
    have hoperand := run_steady operand k frames part
      (fun node hnode => hr node (List.mem_cons_of_mem _ hnode)) hs
    exact hoperand.bind fun v => Steady.pure _
  | @binary s op left right sp l r first second =>
    have hleft := run_steady left k frames first
      (fun node hnode => hr node (by simp [Expr.nodes, hnode]))
      (hs.mono (Nat.le_refl k) fun name hname => by simp [Expr.outerCalls, hname])
    have hright := run_steady right k frames second
      (fun node hnode => hr node (by simp [Expr.nodes, hnode]))
      (hs.mono (Nat.le_refl k) fun name hname => by simp [Expr.outerCalls, hname])
    simp only [Code.run, Expr.functionNodes]
    refine (hleft.mono (by omega)).bind fun a => ?_
    cases op.decided? a with
    | some v => exact Steady.pure v
    | none => exact (hright.mono (by omega)).bind fun b => Steady.pure _
  | @binding s n bound body sp value inner first second =>
    have hbound := run_steady bound k frames first
      (fun node hnode => hr node (by simp [Expr.nodes, hnode]))
      (hs.mono (Nat.le_refl k) fun name hname => by simp [Expr.outerCalls, hname])
    have hbody := fun v => run_steady body k (v :: frames) second
      (fun node hnode => hr node (by simp [Expr.nodes, hnode]))
      (hs.mono (Nat.le_refl k) fun name hname => List.mem_append_right _ hname).pushValue
    simp only [Code.run, Expr.functionNodes]
    exact (hbound.mono (by omega)).bind fun v => (hbody v).mono (by omega)
  | @function s n params body context sp index inner code entry first second =>
    -- In its body the function has a name that nothing calls, so the body ends first.
    have hself := hr _ List.mem_cons_self
    have houter : EndsAll program draws point k s
        ((body.outerCalls.filter (· ∉ params.map (·.name)) ++ context.outerCalls).filter
          (· ≠ n.name)) := hs
    have hbody : Ends program draws point (k + body.functionNodes + 1) index := by
      refine Ends.of_entry entry fun frames => run_steady body k frames first
        (fun node hnode => hr node (by simp [Expr.nodes, hnode])) ?_
      refine EndsAll.pushValues (EndsAll.pushFunction ?_ fun hn => absurd hn hself)
      exact houter.mono (Nat.le_refl k) fun name hname => by
        rw [List.filter_append]
        exact List.mem_append_left _ hname
    have hcontext := run_steady context (k + body.functionNodes + 1) frames second
      (fun node hnode => hr node (by simp [Expr.nodes, hnode]))
      (EndsAll.pushFunction (houter.mono (by omega) fun name hname => by
        rw [List.filter_append]
        exact List.mem_append_right _ hname) fun _ => hbody)
    exact hcontext.mono (by simp only [Expr.functionNodes]; omega)
  | @conditional s condition positive negative sp test yes no first second third =>
    have htest := run_steady condition k frames first
      (fun node hnode => hr node (by simp [Expr.nodes, hnode]))
      (hs.mono (Nat.le_refl k) fun name hname => by simp [Expr.outerCalls, hname])
    have hyes := run_steady positive k frames second
      (fun node hnode => hr node (by simp [Expr.nodes, hnode]))
      (hs.mono (Nat.le_refl k) fun name hname => by simp [Expr.outerCalls, hname])
    have hno := run_steady negative k frames third
      (fun node hnode => hr node (by simp [Expr.nodes, hnode]))
      (hs.mono (Nat.le_refl k) fun name hname => by simp [Expr.outerCalls, hname])
    simp only [Code.run, Expr.functionNodes]
    refine (htest.mono (by omega)).bind fun c => ?_
    cases truthy c with
    | true => exact hyes.mono (by omega)
    | false => exact hno.mono (by omega)

theorem runAll_steady (es : List Expr) : ∀ {s : Scope} {codes : List Code} (k : Nat)
    (frames : Frames), LowersAll program.functions random s es codes →
      (∀ node ∈ Expr.nodesAll es, ¬ node.CallsItself) →
        EndsAll program draws point k s (Expr.outerCallsAll es) →
          Steady (k + Expr.functionNodesAll es) fun d =>
            Code.runAll draws point (program.enter draws point d) codes frames := by
  intro s codes k frames hl hr hs
  cases hl with
  | nil => exact Steady.pure _
  | @cons s e es code codes first rest =>
    have hfirst := run_steady e k frames first
      (fun node hnode => hr node (List.mem_append_left _ hnode))
      (hs.mono (Nat.le_refl k) fun _ => List.mem_append_left _)
    have hrest := runAll_steady es k frames rest
      (fun node hnode => hr node (List.mem_append_right _ hnode))
      (hs.mono (Nat.le_refl k) fun _ => List.mem_append_right _)
    simp only [Code.runAll, Expr.functionNodesAll]
    refine (hfirst.mono (by omega)).bind fun v => ?_
    exact (hrest.mono (by omega)).bind fun vs => Steady.pure _

end

end

variable {e : Expr} {evaluator : Evaluator}

theorem Expr.functionCount_of_compile (h : e.compile = .ok evaluator) :
    evaluator.functionCount = e.functionNodes := by
  obtain ⟨root, c, hc, rfl⟩ := Expr.compile_eq_ok.1 h
  exact (Compilation.codeOf_extends e hc).size.trans (Nat.zero_add _)

/-- An expression in which no function calls itself has a value at every point, whatever numbers
`rand` draws, and as many open calls as it has functions are enough to find it. -/
theorem compile_terminates (h : e.compile = .ok evaluator) (hr : ¬ e.Recursive) (draws : Draws)
    (point : Point) : ∃ v, evaluator.Returns draws point v ∧
      ∀ depth ≥ evaluator.functionCount,
        evaluator.program.evalWithin depth draws point = .ok v := by
  have hcalls : EndsAll evaluator.program draws point 0 {} e.outerCalls :=
    fun name _ index arity above hl => by cases hl
  have hsteady := run_steady e 0 [] (Expr.lowers_of_compile h)
    (fun node hnode hself => hr ⟨node, hnode, hself⟩) hcalls
  obtain ⟨v, n, hv⟩ := hsteady 0
  rw [Nat.zero_add, ← Expr.functionCount_of_compile h] at hv
  have heval : ∀ depth ≥ evaluator.functionCount,
      evaluator.program.evalWithin depth draws point = .ok v := fun depth hdepth => by
    have hrun : evaluator.program.root.run draws point
      (evaluator.program.enter draws point depth) [] 0 = .ok v n := hv depth hdepth
    rw [Program.evalWithin, hrun]
  exact ⟨v, ⟨_, heval _ (Nat.le_refl _)⟩, heval⟩

/-- `let f(a) = let g(b) = a + b in g(a) in f(f(x))`: the inner function comes later in the table
and ends first. -/
def nestedCalls : Expr :=
  let name (text : String) : Ident := ⟨text, ⟨0, 0⟩⟩
  let sp : Span := ⟨0, 0⟩
  let a : Expr := .reference (name "a") sp
  .function (name "f") [name "a"]
    (.function (name "g") [name "b"] (.binary .add a (.reference (name "b") sp) sp)
      (.call (name "g") [a] sp) sp)
    (.call (name "f") [.call (name "f") [.reference (name "x") sp] sp] sp) sp

theorem nestedCalls_terminates :
    ∃ evaluator, nestedCalls.compile = .ok evaluator ∧ ¬ nestedCalls.Recursive ∧
      ∃ v, evaluator.Returns (fun _ => 0.0) ⟨1.0, 2.0, 3.0⟩ v ∧
        ∀ depth ≥ evaluator.functionCount,
          evaluator.program.evalWithin depth (fun _ => 0.0) ⟨1.0, 2.0, 3.0⟩ = .ok v := by
  have hr : ¬ nestedCalls.Recursive := by
    simp [Expr.Recursive, nestedCalls, Expr.nodes, Expr.nodesAll, Expr.CallsItself,
      Expr.outerCalls, Expr.outerCallsAll]
  have hok : nestedCalls.compile.isOk = true := by decide +kernel
  cases h : nestedCalls.compile with
  | error error =>
    rw [h] at hok
    cases hok
  | ok evaluator => exact ⟨evaluator, rfl, hr, compile_terminates h hr _ _⟩

end Heightfield
