import Heightfield.Proofs.Addressing.Safety

/-! Visits are all that an evaluation runs, so an evaluation without a value is one that ran out of
calls: a part that could halt otherwise would be visited, and no visit does. -/

namespace Heightfield

open Compilation

/-- Ends in a value or in too many calls. -/
def Safe {α : Type} (r : EStateM.Result Halt Nat α) : Prop :=
  ∀ halt n, r = .error halt n → halt = .tooDeep

theorem Safe.ok {α : Type} (a : α) (n : Nat) : Safe (.ok a n : EStateM.Result Halt Nat α) := nofun

theorem Safe.bind {α β : Type} {x : Run α} {f : α → Run β} {n : Nat} (hx : Safe (x n))
    (hf : ∀ a n', x n = .ok a n' → Safe (f a n')) : Safe ((x >>= f) n) := by
  rw [bind_apply]
  cases hr : x n with
  | ok a n' => exact hf a n' hr
  | error halt n' =>
    intro halt' n'' h
    cases h
    exact hx halt n' hr

section

variable {root : Expr} {program : Program} {draws : Draws} {point : Point} {depth : Nat}

theorem runAll_append {enter : Nat → Frames → Run Float} {front back : List Code} {frames : Frames}
    {n n' n'' : Nat} {values values' : List Float}
    (hfront : Code.runAll draws point enter front frames n = .ok values n')
    (hback : Code.runAll draws point enter back frames n' = .ok values' n'') :
    Code.runAll draws point enter (front ++ back) frames n = .ok (values ++ values') n'' := by
  induction front generalizing n values with
  | nil =>
    cases hfront
    exact hback
  | cons code codes ih =>
    rw [Code.runAll, bind_eq_ok] at hfront
    obtain ⟨v, n₁, hv, hfront⟩ := hfront
    rw [bind_eq_ok] at hfront
    obtain ⟨vs, n₂, hvs, hfront⟩ := hfront
    cases hfront
    have hrest := ih hvs
    simp only [List.cons_append, Code.runAll, bind_apply, hv, hrest, pure_apply]

/-- The calls at visits are safe. -/
def EntersSafely (root : Expr) (program : Program) (draws : Draws) (point : Point) (depth : Nat) :
    Prop :=
  ∀ {around name args sp c index hops codes c' frames n values n'},
    Visit program draws point root depth ⟨around, .call name args sp, c, .call index hops codes, c'⟩
      frames n →
    Code.runAll draws point (program.enter draws point depth) codes frames n = .ok values n' →
      Safe (program.enter draws point depth index (Frames.ofCall values (frames.drop hops)) n')

/-- Wherever `e` is visited, its run is safe. -/
def SafeAt (root : Expr) (program : Program) (draws : Draws) (point : Point) (depth : Nat)
    (e : Expr) : Prop :=
  ∀ {around c c' code frames n}, codeOf e c = .ok code c' →
    Visit program draws point root depth ⟨around, e, c, code, c'⟩ frames n →
      Safe (code.run draws point (program.enter draws point depth) frames n)

namespace SafeAt

variable {name : Ident} {params : List Ident} {sp : Span}
  {left right condition body context : Expr}

theorem number (value : Float) : SafeAt root program draws point depth (.number value sp) := by
  intro around c c' code frames n made _
  obtain ⟨rfl, -⟩ := number_ok made
  exact .ok value n

theorem reference : SafeAt root program draws point depth (.reference name sp) := by
  intro around c c' code frames n made _
  obtain ⟨-, ⟨slot, -, rfl⟩ | ⟨-, ⟨p, -, rfl⟩ | ⟨-, v, -, rfl⟩⟩⟩ := reference_ok made
  · exact .ok _ n
  · exact .ok _ n
  · exact .ok _ n

theorem unary {op : Op} {fixity : Fixity} (ih : SafeAt root program draws point depth left) :
    SafeAt root program draws point depth (.unary op fixity left sp) := by
  intro around c c' code frames n made hv
  obtain ⟨-, hop, inner, hinner, rfl⟩ := unary_ok made
  obtain rfl | rfl := hop
  · exact ih hinner (hv.same (.operand hinner) (.inr rfl) rfl)
  · exact Safe.bind (ih hinner (hv.part (.operand hinner) .operand)) fun v n' _ => .ok _ n'

theorem binary {op : Op} (ih : SafeAt root program draws point depth left)
    (ih' : SafeAt root program draws point depth right) :
    SafeAt root program draws point depth (.binary op left right sp) := by
  intro around c c' code frames n made hv
  obtain ⟨l, c₁, r, hl, hr, rfl⟩ := binary_ok made
  refine Safe.bind (ih hl (hv.part (.left hl) .left)) fun v n' hrun => ?_
  cases hop : op.decided? v with
  | some w => exact .ok w n'
  | none =>
    have hright := ih' hr (hv.part (.right hl hr) (.right hrun hop))
    exact Safe.bind hright fun w n'' _ => .ok _ n''

theorem binding (ih : SafeAt root program draws point depth left)
    (ih' : SafeAt root program draws point depth body) :
    SafeAt root program draws point depth (.binding name left body sp) := by
  intro around c c' code frames n made hv
  obtain ⟨value, c₁, inner, c₂, hbound, hbody, rfl, -⟩ := binding_ok made
  refine Safe.bind (ih hbound (hv.part (.bound hbound) .bound)) fun v n' hrun => ?_
  exact ih' hbody (hv.part (.body hbound (openBinding_apply c₁ name) hbody) (.body hrun))

theorem function (ih : SafeAt root program draws point depth context) :
    SafeAt root program draws point depth (.function name params body context sp) := by
  intro around c c' code frames n made hv
  obtain ⟨-, inner, c₁, c₂, hbody, hcontext, -⟩ := function_ok made
  exact ih hcontext (hv.same (.context (openFunction_apply c name params) hbody
    (closeFunction_ok c₁ _ params inner) hcontext) (.inl rfl) rfl)

theorem conditional (ih : SafeAt root program draws point depth condition)
    (ih' : SafeAt root program draws point depth left)
    (ih'' : SafeAt root program draws point depth right) :
    SafeAt root program draws point depth (.conditional condition left right sp) := by
  intro around c c' code frames n made hv
  obtain ⟨test, c₁, yes, c₂, no, ht, hy, hn, rfl⟩ := conditional_ok made
  refine Safe.bind (ih ht (hv.part (.condition ht) .condition)) fun v n' hrun => ?_
  cases hchosen : truthy v with
  | true => exact ih' hy (hv.part (.positive ht hy) (.positive hrun hchosen))
  | false => exact ih'' hn (hv.part (.negative ht hy hn) (.negative hrun hchosen))

/-- Those of the arguments that are not run yet. -/
theorem arguments {later earlier : List Expr} {around : Around} {c c₁ c₂ c₃ c' : Compilation}
    {target : Callee × Nat} {index hops n n' : Nat} {front back : List Code} {frames : Frames}
    {values : List Float} (ih : ∀ e ∈ later, SafeAt root program draws point depth e)
    (hv : Visit program draws point root depth
      ⟨around, .call name (earlier ++ later) sp, c, .call index hops (front ++ back), c'⟩ frames n)
    (htarget : callee name c = .ok target c₁) (hfront : codesOf earlier c₁ = .ok front c₂)
    (hback : codesOf later c₂ = .ok back c₃)
    (hrun : Code.runAll draws point (program.enter draws point depth) front frames n =
      .ok values n') :
    Safe (Code.runAll draws point (program.enter draws point depth) back frames n') := by
  induction later generalizing earlier front back c₂ n' values with
  | nil =>
    obtain ⟨rfl, -⟩ := codesOf_nil_ok hback
    exact .ok [] n'
  | cons arg later ihl =>
    obtain ⟨first, c₄, others, hfirst, hothers, rfl⟩ := codesOf_cons_ok hback
    have run : Runs program draws point depth (.argument earlier.length)
        (.call index hops (front ++ first :: others)) frames n first frames n' := by
      rw [← codesOf_length hfront]
      exact .argument hrun
    have harg := ih arg List.mem_cons_self hfirst
      (hv.part (.argument earlier htarget hfront hfirst) run)
    refine Safe.bind harg fun v n'' hv' => ?_
    have hone : codesOf [arg] c₂ = .ok [first] c₄ := by
      simp only [codesOf_cons_eq, codesOf_nil_eq, bind_apply, hfirst, pure_apply]
    have hfront' := codesOf_append.2 ⟨front, c₂, [first], hfront, hone, rfl⟩
    have hrun' : Code.runAll draws point (program.enter draws point depth) (front ++ [first]) frames
        n = .ok (values ++ [v]) n'' := by
      refine runAll_append hrun ?_
      simp only [Code.runAll, bind_apply, hv', pure_apply]
    rw [List.append_cons, List.append_cons front] at hv
    have hlater := ihl (fun e he => ih e (List.mem_cons_of_mem arg he)) hv hfront' hothers hrun'
    exact Safe.bind hlater fun vs n'' _ => .ok _ n''

theorem call (henter : EntersSafely root program draws point depth) {args : List Expr}
    (ih : ∀ e ∈ args, SafeAt root program draws point depth e) :
    SafeAt root program draws point depth (.call name args sp) := by
  intro around c c' code frames n made hv
  obtain ⟨target, c₁, codes, c₂, hcallee, hargs, hcall⟩ := call_ok made
  obtain ⟨-, ⟨index, arity, -, rfl⟩ | ⟨-, -, ⟨f, -, rfl, hone⟩ | ⟨-, rfl, -⟩⟩⟩ :=
    callee_ok hcallee
  · obtain ⟨rfl, -⟩ := by simpa [callOf] using hcall
    have hv' : Visit program draws point root depth
      ⟨around, .call name ([] ++ args) sp, c, .call index _ ([] ++ codes), c'⟩ frames n := hv
    exact Safe.bind (arguments ih hv' hcallee rfl hargs rfl) fun values n' hrun => henter hv hrun
  · obtain ⟨arg, rfl⟩ := List.length_eq_one_iff.1 hone
    obtain ⟨first, c₃, others, hfirst, hothers, rfl⟩ := codesOf_cons_ok hargs
    obtain ⟨rfl, rfl⟩ := codesOf_nil_ok hothers
    obtain ⟨rfl, -⟩ := by simpa [callOf] using hcall
    have harg := ih arg List.mem_cons_self hfirst
      (hv.part (.argument [] hcallee rfl hfirst) .only)
    exact Safe.bind harg fun v n' _ => .ok _ n'
  · simp only [callOf, bind_eq_ok] at hcall
    obtain ⟨_, _, _, hcall⟩ := hcall
    cases hcall
    exact .ok _ _

end SafeAt

mutual

theorem EntersSafely.safeAt (henter : EntersSafely root program draws point depth) :
    ∀ e, SafeAt root program draws point depth e
  | .number value _ => SafeAt.number value
  | .reference _ _ => SafeAt.reference
  | .call _ args _ => SafeAt.call henter (henter.safeAt_mem args)
  | .unary _ _ operand _ => SafeAt.unary (henter.safeAt operand)
  | .binary _ left right _ => SafeAt.binary (henter.safeAt left) (henter.safeAt right)
  | .binding _ bound body _ => SafeAt.binding (henter.safeAt bound) (henter.safeAt body)
  | .function _ _ _ context _ => SafeAt.function (henter.safeAt context)
  | .conditional condition positive negative _ =>
    SafeAt.conditional (henter.safeAt condition) (henter.safeAt positive) (henter.safeAt negative)

theorem EntersSafely.safeAt_mem (henter : EntersSafely root program draws point depth) :
    ∀ es : List Expr, ∀ e ∈ es, SafeAt root program draws point depth e
  | e :: _, _, .head _ => henter.safeAt e
  | _ :: es, e, .tail _ he => henter.safeAt_mem es e he

end

/-- Each level of calls is safe if the one below is: a call at a visit enters the body that its name
stands for, and the body is visited then. -/
theorem entersSafely {code : Code} {final : Compilation} (hroot : codeOf root {} = .ok code final)
    (depth : Nat) : EntersSafely root (final.finish code).program draws point depth := by
  induction depth with
  | zero =>
    intro _ _ _ _ _ _ _ _ _ _ _ _ _ _ _ halt n h
    cases h
    rfl
  | succ depth ih =>
    intro around name args sp c index hops codes c' frames n values n' hv hrun
    obtain ⟨hs, hframes⟩ := hv.placed hroot
    have haddresses : Site.Addresses root (final.finish code).program _ frames :=
      (hs.placed hroot).addresses hframes
    obtain ⟨d, outer, hd, -, -, -, slot, c₁, inner, c₂, hopen, hbody, hentry⟩ :=
      haddresses.function rfl rfl
    rw [Program.enter, hentry]
    exact EntersSafely.safeAt ih d.body hbody (hv.enter hrun hd hopen hbody)

end

/-- No compiled program looks for a frame or for a function that is not there, or finds another than
the one its names stand for. An evaluation without a value nests its calls too deep. -/
theorem compiled_addresses {root : Expr} {evaluator : Evaluator}
    (h : root.compile = .ok evaluator) :
    evaluator.functionCount = root.functionNodes ∧ (∀ s, Compiled root s → s.Counts) ∧
      (∀ draws point depth s frames n,
        Visit evaluator.program draws point root depth s frames n →
          s.Addresses root evaluator.program frames) ∧
      ∀ draws point depth halt,
        evaluator.program.evalWithin depth draws point = .error halt → halt = .tooDeep := by
  obtain ⟨code, c, hc, rfl⟩ := Expr.compile_eq_ok.1 h
  refine ⟨?_, fun s hs => (hs.placed hc).counts, ?_, ?_⟩
  · have hsize := (codeOf_extends root hc).size
    simpa [Evaluator.functionCount, Compilation.finish] using hsize
  · intro draws point depth s frames n hv
    obtain ⟨hs, hframes⟩ := hv.placed hc
    exact (hs.placed hc).addresses hframes
  · intro draws point depth halt heval
    have hvisit : Visit (c.finish code).program draws point root depth ⟨[], root, {}, code, c⟩
        [] 0 := .root hc
    have hsafe := EntersSafely.safeAt (entersSafely hc depth) root hc hvisit
    unfold Program.evalWithin at heval
    split at heval
    · cases heval
    · next _ n hrun =>
      cases heval
      exact hsafe _ n hrun

/-- `let f(a) = let b = a in f(b) in f(x)`: the call inside has two frames between itself and the
definition, the call outside none. -/
def recursiveCall : Expr :=
  let name (text : String) : Ident := ⟨text, ⟨0, 0⟩⟩
  let sp : Span := ⟨0, 0⟩
  .function (name "f") [name "a"]
    (.binding (name "b") (.reference (name "a") sp)
      (.call (name "f") [.reference (name "b") sp] sp) sp)
    (.call (name "f") [.reference (name "x") sp] sp) sp

theorem recursiveCall_addresses :
    ∃ evaluator, recursiveCall.compile = .ok evaluator ∧ evaluator.functionCount = 1 ∧
      ∀ depth s frames n,
        Visit evaluator.program (fun _ => 0.0) ⟨1.0, 2.0, 3.0⟩ recursiveCall depth s frames n →
          s.Addresses recursiveCall evaluator.program frames := by
  have hok : recursiveCall.compile.isOk = true := by decide +kernel
  cases hc : recursiveCall.compile with
  | error error =>
    rw [hc] at hok
    cases hok
  | ok evaluator =>
    obtain ⟨hcount, -, hvisits, -⟩ := compiled_addresses hc
    exact ⟨evaluator, rfl, hcount, fun depth s frames n => hvisits _ _ depth s frames n⟩

end Heightfield
