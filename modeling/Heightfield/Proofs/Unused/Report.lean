import Heightfield.Proofs.Addressing
import Heightfield.Proofs.Compilation.Usage

/-! Which node of an expression a warning of an unused name is about. The compilation of a node adds
it last, when the binder is left, behind the warnings of all parts; so the trace of the compilation
tells the node, where names and spans may be the same at several nodes. -/

namespace Heightfield

open Compilation

/-- Where the part stands that is left out. -/
def Layer.position : Layer → Position
  | .argument _ earlier _ _ => .argument earlier.length
  | .operand .. => .operand
  | .left .. => .left
  | .right .. => .right
  | .bound .. => .bound
  | .body .. => .body
  | .inner .. => .inner
  | .context .. => .context
  | .condition .. => .condition
  | .positive .. => .positive
  | .negative .. => .negative

/-- `s` is the call of `codeOf` for what stands in `root` at the place `C`. -/
inductive Reached (root : Expr) : Context → Site → Prop
  | root {code c} (made : codeOf root {} = .ok code c) : Reached root [] ⟨[], root, {}, code, c⟩
  | part {C s s'} (layer : Layer) (whole : Reached root C s) (part : Part layer.position s s')
      (plug : layer.plug s'.expr = s.expr) : Reached root (C ++ [layer]) s'

/-- The node at the place `C` raises the warning: it is all that is added behind the last part of
the node, where the node leaves its own name. -/
def Raises (root : Expr) (C : Context) (w : CompileWarning) : Prop :=
  ∃ s position last, Reached root C s ∧ (position = .body ∨ position = .context) ∧
    Part position s last ∧ s.after.warnings = last.after.warnings ++ [w]

theorem Part.made {position : Position} {s s' : Site} (h : Part position s s') :
    codeOf s'.expr s'.before = .ok s'.code s'.after := by
  cases h <;> assumption

/-- Every part of a node that is compiled is compiled. -/
theorem Part.exists_of_plug {s : Site} (layer : Layer) {e : Expr}
    (h : codeOf s.expr s.before = .ok s.code s.after) (he : s.expr = layer.plug e) :
    ∃ s', Part layer.position s s' ∧ s'.expr = e := by
  obtain ⟨around, expr, c, code, c'⟩ := s
  cases he
  cases layer with
  | argument n earlier later sp =>
    obtain ⟨target, c₁, codes, c₂, hcallee, hargs, -⟩ := call_ok h
    obtain ⟨front, c₃, back, hfront, hback, -⟩ := codesOf_append.1 hargs
    obtain ⟨code, c₄, others, hcode, -, -⟩ := codesOf_cons_ok hback
    exact ⟨_, .argument earlier hcallee hfront hcode, rfl⟩
  | operand op fixity sp =>
    obtain ⟨-, -, inner, hinner, -⟩ := unary_ok h
    exact ⟨_, .operand hinner, rfl⟩
  | left op right sp =>
    obtain ⟨l, c₁, r, hl, -, -⟩ := binary_ok h
    exact ⟨_, .left hl, rfl⟩
  | right op left sp =>
    obtain ⟨l, c₁, r, hl, hr, -⟩ := binary_ok h
    exact ⟨_, .right hl hr, rfl⟩
  | bound n body sp =>
    obtain ⟨value, c₁, inner, c₂, hbound, -⟩ := binding_ok h
    exact ⟨_, .bound hbound, rfl⟩
  | body n bound sp =>
    obtain ⟨value, c₁, inner, c₂, hbound, hbody, -⟩ := binding_ok h
    exact ⟨_, .body hbound (openBinding_apply _ _) hbody, rfl⟩
  | inner n params context sp =>
    obtain ⟨-, inner, c₁, c₂, hbody, -⟩ := function_ok h
    exact ⟨_, .inner (openFunction_apply _ _ _) hbody, rfl⟩
  | context n params body sp =>
    obtain ⟨-, inner, c₁, c₂, hbody, hcontext, -⟩ := function_ok h
    exact ⟨_, .context (openFunction_apply _ _ _) hbody (closeFunction_ok _ _ _ _) hcontext, rfl⟩
  | condition positive negative sp =>
    obtain ⟨test, c₁, yes, c₂, no, ht, -⟩ := conditional_ok h
    exact ⟨_, .condition ht, rfl⟩
  | positive condition negative sp =>
    obtain ⟨test, c₁, yes, c₂, no, ht, hy, -⟩ := conditional_ok h
    exact ⟨_, .positive ht hy, rfl⟩
  | negative condition positive sp =>
    obtain ⟨test, c₁, yes, c₂, no, ht, hy, hn, -⟩ := conditional_ok h
    exact ⟨_, .negative ht hy hn, rfl⟩

namespace Reached

variable {root : Expr} {C : Context} {s : Site}

theorem made (h : Reached root C s) : codeOf s.expr s.before = .ok s.code s.after := by
  cases h with
  | root made => exact made
  | part layer whole part plug => exact part.made

theorem fill_eq (h : Reached root C s) : C.fill s.expr = root := by
  induction h with
  | root made => rfl
  | part layer whole part plug ih =>
    rw [Context.fill_append]
    exact (congrArg _ plug).trans ih

theorem further {D : Context} {e : Expr} (h : Reached root C s) (he : s.expr = D.fill e) :
    ∃ s', Reached root (C ++ D) s' ∧ s'.expr = e := by
  induction D generalizing C s with
  | nil =>
    rw [List.append_nil]
    exact ⟨s, h, he⟩
  | cons layer D ih =>
    obtain ⟨s', hpart, hs'⟩ := Part.exists_of_plug layer h.made he
    obtain ⟨s'', hreached, he''⟩ := ih (h.part layer hpart (by rw [hs', he]; rfl)) hs'
    rw [List.append_assoc] at hreached
    exact ⟨s'', hreached, he''⟩

/-- Every node of a tree that compiles is reached. -/
theorem of_compile {e : Expr} {evaluator : Evaluator} (h : (C.fill e).compile = .ok evaluator) :
    ∃ s, Reached (C.fill e) C s ∧ s.expr = e := by
  obtain ⟨root, c, hc, -⟩ := Expr.compile_eq_ok.1 h
  exact (Reached.root hc).further rfl

end Reached

section Binders

variable {C : Context} {s last : Site} {position : Position} {n : Ident} {params : List Ident}
  {bound body context : Expr} {sp : Span} {w : CompileWarning} {evaluator : Evaluator}

theorem Compilation.warnings_left {c : Compilation} {w' : CompileWarning} :
    (c.left w').warnings = c.warnings ++ [w] ↔ w = w' ∧ c.scope.pop.1 = false := by
  unfold left
  cases c.scope.pop.1 with
  | false => simp [eq_comm]
  | true => simp

/-- The state behind a binding is that behind its body, with the name left. -/
theorem Part.after_binding (hs : s.expr = .binding n bound body sp)
    (hmade : codeOf s.expr s.before = .ok s.code s.after)
    (hposition : position = .body ∨ position = .context) (hpart : Part position s last) :
    s.after = last.after.left (.unusedBinding n.name n.span) ∧
      last.after.scope.pop.1 = decide (n.name ∈ body.freeNames) := by
  cases hpart with
  | body sofar opened made =>
    cases hs
    obtain ⟨value, c₁, inner, c₂, hbound, hbody, -, hafter⟩ := binding_ok hmade
    cases sofar.symm.trans hbound
    cases (openBinding_apply _ _).symm.trans opened
    cases made.symm.trans hbody
    exact ⟨hafter, used_under hbody⟩
  | context => cases hs
  | _ => rcases hposition with h | h <;> cases h

theorem Part.after_function (hs : s.expr = .function n params body context sp)
    (hmade : codeOf s.expr s.before = .ok s.code s.after)
    (hposition : position = .body ∨ position = .context) (hpart : Part position s last) :
    s.after.warnings = (last.after.left (.unusedFunction n.name n.span)).warnings ∧
      last.after.scope.pop.1 = decide (n.name ∈
        body.freeNames.filter (· ∉ params.map (·.name)) ++ context.freeNames) := by
  cases hpart with
  | context opened sofar closed made =>
    cases hs
    obtain ⟨-, inner, c₁, c₂, hbody, hcontext, hafter⟩ := function_ok hmade
    cases (openFunction_apply _ _ _).symm.trans opened
    cases sofar.symm.trans hbody
    cases (closeFunction_ok _ _ _ _).symm.trans closed
    cases made.symm.trans hcontext
    exact ⟨congrArg (·.warnings) hafter, used_closed hbody hcontext⟩
  | body => cases hs
  | _ => rcases hposition with h | h <;> cases h

/-- A binding raises one warning if its name is not free in its body, and no other. -/
theorem raises_binding (h : (C.fill (.binding n bound body sp)).compile = .ok evaluator) :
    Raises (C.fill (.binding n bound body sp)) C w ↔
      w = .unusedBinding n.name n.span ∧ n.name ∉ body.freeNames := by
  constructor
  · rintro ⟨s, position, last, hreached, hposition, hpart, hw⟩
    have hs := C.fill_injective hreached.fill_eq
    obtain ⟨hafter, hused⟩ := hpart.after_binding hs hreached.made hposition
    rw [hafter, warnings_left, hused, decide_eq_false_iff_not] at hw
    exact hw
  · intro hw
    obtain ⟨s, hreached, hs⟩ := Reached.of_compile h
    obtain ⟨last, hpart, -⟩ := Part.exists_of_plug (.body n bound sp) hreached.made hs
    obtain ⟨hafter, hused⟩ := hpart.after_binding hs hreached.made (.inl rfl)
    refine ⟨s, .body, last, hreached, .inl rfl, hpart, ?_⟩
    rw [hafter, warnings_left, hused, decide_eq_false_iff_not]
    exact hw

/-- A function raises one warning if neither its body nor its context takes its name from it. -/
theorem raises_function
    (h : (C.fill (.function n params body context sp)).compile = .ok evaluator) :
    Raises (C.fill (.function n params body context sp)) C w ↔
      w = .unusedFunction n.name n.span ∧ n.name ∉
        body.freeNames.filter (· ∉ params.map (·.name)) ++ context.freeNames := by
  constructor
  · rintro ⟨s, position, last, hreached, hposition, hpart, hw⟩
    have hs := C.fill_injective hreached.fill_eq
    obtain ⟨hafter, hused⟩ := hpart.after_function hs hreached.made hposition
    rw [hafter, warnings_left, hused, decide_eq_false_iff_not] at hw
    exact hw
  · intro hw
    obtain ⟨s, hreached, hs⟩ := Reached.of_compile h
    obtain ⟨last, hpart, -⟩ := Part.exists_of_plug (.context n params body sp) hreached.made hs
    obtain ⟨hafter, hused⟩ := hpart.after_function hs hreached.made (.inr rfl)
    refine ⟨s, .context, last, hreached, .inr rfl, hpart, ?_⟩
    rw [hafter, warnings_left, hused, decide_eq_false_iff_not]
    exact hw

end Binders

end Heightfield
