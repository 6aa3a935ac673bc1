import Heightfield.Proofs.Scope
import Heightfield.Proofs.WellFormed.Verdict

/-! What a failed compilation leaves in the scope. A binding and the context of a function leave the
scope before they fail, but the body of a function does not leave the name of the function; so one
entry stays for each function whose body the failure passes through. -/

namespace Heightfield

namespace Expr

mutual

/-- How many function bodies stand around the first fault. -/
def bodiesAround : Expr → Names → Nat
  | number _ _, _ | reference _ _, _ => 0
  | call n args sp, names =>
    if names.calleeFaults n args.length sp = [] then bodiesAroundAll args names else 0
  | unary op fixity operand sp, names =>
    if operatorFaults op fixity sp = [] then operand.bodiesAround names else 0
  | binary _ left right _, names =>
    if left.faults names = [] then right.bodiesAround names else left.bodiesAround names
  | binding n bound body _, names =>
    if bound.faults names = [] then body.bodiesAround (names.bind n) else bound.bodiesAround names
  | function n params body context _, names =>
    if parameterFaults params [] = [] then
      if body.faults (names.enter n params) = [] then context.bodiesAround (names.define n params)
      else body.bodiesAround (names.enter n params) + 1
    else 0
  | conditional condition positive negative _, names =>
    if condition.faults names = [] then
      if positive.faults names = [] then negative.bodiesAround names
      else positive.bodiesAround names
    else condition.bodiesAround names

def bodiesAroundAll : List Expr → Names → Nat
  | [], _ => 0
  | e :: es, names =>
    if e.faults names = [] then bodiesAroundAll es names else e.bodiesAround names

end

mutual

theorem bodiesAround_le : ∀ (e : Expr) (names : Names), e.bodiesAround names ≤ e.functionNodes
  | number _ _, _ | reference _ _, _ => Nat.le_refl 0
  | call n args sp, names => by
    have hargs := bodiesAroundAll_le args names
    rw [bodiesAround, functionNodes]
    split <;> omega
  | unary op fixity operand sp, names => by
    have hoperand := bodiesAround_le operand names
    rw [bodiesAround, functionNodes]
    split <;> omega
  | binary _ left right _, names => by
    have hleft := bodiesAround_le left names
    have hright := bodiesAround_le right names
    rw [bodiesAround, functionNodes]
    split <;> omega
  | binding n bound body _, names => by
    have hbound := bodiesAround_le bound names
    have hbody := bodiesAround_le body (names.bind n)
    rw [bodiesAround, functionNodes]
    split <;> omega
  | function n params body context _, names => by
    have hbody := bodiesAround_le body (names.enter n params)
    have hcontext := bodiesAround_le context (names.define n params)
    rw [bodiesAround, functionNodes]
    split_ifs <;> omega
  | conditional condition positive negative _, names => by
    have hcondition := bodiesAround_le condition names
    have hpositive := bodiesAround_le positive names
    have hnegative := bodiesAround_le negative names
    rw [bodiesAround, functionNodes]
    split_ifs <;> omega

theorem bodiesAroundAll_le : ∀ (es : List Expr) (names : Names),
    bodiesAroundAll es names ≤ functionNodesAll es
  | [], _ => Nat.le_refl 0
  | e :: es, names => by
    have hfirst := bodiesAround_le e names
    have hothers := bodiesAroundAll_le es names
    rw [bodiesAroundAll, functionNodesAll]
    split <;> omega

end

end Expr

namespace Scope

/-- Above the entries of `s` stand `n` more in `s'`, with their frames. -/
def Above (n : Nat) (s s' : Scope) : Prop :=
  ∃ left : List ScopeEntry, left.length = n ∧
    s'.unmarked.entries = left ++ s.unmarked.entries ∧
      s'.depth = s.depth + left.countP ScopeEntry.isValue

namespace Above

variable {n k : Nat} {s s' t : Scope}

theorem zero_iff : Above 0 s s' ↔ s'.unmarked = s.unmarked := by
  constructor
  · rintro ⟨left, hlength, hentries, hdepth⟩
    obtain rfl := List.length_eq_zero_iff.1 hlength
    have hscope : s'.unmarked = ⟨s'.unmarked.entries, s'.depth⟩ := rfl
    rw [hscope, hentries, hdepth]
    rfl
  · intro h
    refine ⟨[], rfl, ?_, ?_⟩
    · rw [h]
      rfl
    · rw [← unmarked_depth s', h]
      rfl

theorem congr (h : Above n s s') (hs : s.unmarked = t.unmarked) : Above n t s' := by
  obtain ⟨left, hlength, hentries, hdepth⟩ := h
  refine ⟨left, hlength, hs ▸ hentries, ?_⟩
  rw [hdepth, ← unmarked_depth s, hs, unmarked_depth]

theorem ofValue {name : String} (h : Above n (s.pushValue name) s') : Above (n + 1) s s' := by
  obtain ⟨left, hlength, hentries, hdepth⟩ := h
  refine ⟨left ++ [{ name, binding := .value s.depth }], ?_, ?_, ?_⟩
  · rw [List.length_append, hlength, List.length_singleton]
  · rw [hentries, List.append_assoc]
    rfl
  · rw [hdepth, List.countP_append]
    simp [pushValue, ScopeEntry.isValue]
    omega

theorem ofFunction {name : String} {index arity : Nat}
    (h : Above n (s.pushFunction name index arity) s') : Above (n + 1) s s' := by
  obtain ⟨left, hlength, hentries, hdepth⟩ := h
  refine ⟨left ++ [{ name, binding := .function index arity s.depth }], ?_, ?_, ?_⟩
  · rw [List.length_append, hlength, List.length_singleton]
  · rw [hentries, List.append_assoc]
    rfl
  · rw [hdepth, List.countP_append]
    simp [pushFunction, ScopeEntry.isValue]

theorem ofValues {ps : List Ident} (h : Above n (s.pushValues ps) s') :
    Above (n + ps.length) s s' := by
  induction ps generalizing s with
  | nil => exact h
  | cons p ps ih =>
    have hvalue := (ih (s := s.pushValue p.name) h).ofValue
    rwa [Nat.add_assoc] at hvalue

/-- Whatever the innermost entry is, it goes with its frame. -/
theorem pop (h : Above (n + 1) s s') : Above n s s'.pop.2 := by
  obtain ⟨left, hlength, hentries, hdepth⟩ := h
  obtain ⟨⟨name, binding, used⟩, left, rfl⟩ := List.exists_cons_of_length_eq_add_one hlength
  have hscope : s'.unmarked =
      ⟨⟨name, binding, used⟩ :: (left ++ s.unmarked.entries), s'.depth⟩ := by
    rw [← List.cons_append, ← hentries]
    rfl
  refine ⟨left, Nat.succ.inj hlength, ?_, ?_⟩
  · rw [unmarked_pop, hscope]
    cases binding <;> rfl
  · rw [← unmarked_depth, unmarked_pop, hscope]
    rw [List.countP_cons] at hdepth
    cases binding with
    | value slot => exact Nat.sub_eq_of_eq_add hdepth
    | function index arity depth => exact hdepth

theorem leaveMany (h : Above (n + k) s s') : Above n s (s'.leaveMany k) := by
  induction k generalizing n with
  | zero => exact h
  | succ k ih => exact (ih (n := n + 1) (by rwa [Nat.add_right_comm])).pop

end Above

end Scope

namespace Compilation

variable {c c' : Compilation} {err : CompileError}

theorem faults_of_ok {e : Expr} {code : Code} (h : codeOf e c = .ok code c') :
    e.faults c.scope.senses = [] := by
  have hjudged := judged e c
  rw [h] at hjudged
  exact List.head?_eq_none_iff.1 hjudged.symm

theorem faults_of_error {e : Expr} (h : codeOf e c = .error err c') :
    e.faults c.scope.senses ≠ [] := by
  have hjudged := judged e c
  rw [h] at hjudged
  intro hnil
  rw [hnil] at hjudged
  cases hjudged

/-- What fails for the meaning of a name leaves no more than its mark. -/
theorem lookup_error {α : Type} {name : String} {k : Option Binding → Compile α}
    (hk : ∀ found c₁ err c₂, k found c₁ = .error err c₂ → c₂ = c₁)
    (h : (lookup name >>= k) c = .error err c') : c'.scope.unmarked = c.scope.unmarked := by
  rw [bind_apply, lookup_apply] at h
  rw [hk _ _ _ _ h]
  exact c.scope.unmarked_lookup name

theorem reference_error {n : Ident} (h : reference n c = .error err c') :
    c'.scope.unmarked = c.scope.unmarked := by
  refine lookup_error (fun found c₁ err c₂ hfails => ?_) h
  rcases found with _ | _ | _
  · rcases hp : Param.lookup? n.name with _ | p <;> simp only [hp] at hfails
    · rcases hb : Builtin.lookup? n.name with _ | _ | _ | _ <;> simp only [hb] at hfails <;>
        cases hfails <;> rfl
    · cases hfails
  · cases hfails
  · cases hfails
    rfl

theorem callee_error {n : Ident} (h : callee n c = .error err c') :
    c'.scope.unmarked = c.scope.unmarked := by
  refine lookup_error (fun found c₁ err c₂ hfails => ?_) h
  rcases found with _ | _ | _
  · by_cases hp : (Param.lookup? n.name).isSome <;> simp only [hp, ↓reduceIte] at hfails
    · cases hfails
      rfl
    · rcases hb : Builtin.lookup? n.name with _ | _ | _ | _ <;>
        simp only [hb, Bool.false_eq_true, ↓reduceIte] at hfails <;> cases hfails <;> rfl
  · cases hfails
    rfl
  · cases hfails

/-- A failure of `e` leaves so many entries in the scope. -/
def Strands (e : Expr) : Prop := ∀ ⦃c err c'⦄, codeOf e c = .error err c' →
  Scope.Above (e.bodiesAround c.scope.senses) c.scope c'.scope

def StrandsAll (es : List Expr) : Prop := ∀ ⦃c err c'⦄, codesOf es c = .error err c' →
  Scope.Above (Expr.bodiesAroundAll es c.scope.senses) c.scope c'.scope

namespace Strands

theorem reference (n : Ident) (sp : Span) : Strands (.reference n sp) := fun _ _ _ h =>
  Scope.Above.zero_iff.2 (reference_error h)

theorem call {args : List Expr} (hargs : StrandsAll args) (n : Ident) (sp : Span) :
    Strands (.call n args sp) := by
  intro c err c' h
  unfold Expr.bodiesAround
  simp only [codeOf_call_eq, bind_eq_error] at h
  rcases h with hcallee | ⟨⟨target, arity⟩, c₁, hcallee, h⟩
  · rw [if_neg (by simp [calleeFaults_of_callee hcallee])]
    exact Scope.Above.zero_iff.2 (callee_error hcallee)
  · have hscope := (callee_extends hcallee).scope
    have hsense := sense?_of_callee hcallee
    by_cases harity : args.length = arity
    · subst harity
      rw [if_pos (Names.calleeFaults_eq_nil.2 hsense), ← Scope.senses_eq hscope]
      simp only [ne_eq, not_true_eq_false, ↓reduceIte, bind_eq_error] at h
      rcases h with h | ⟨codes, c₂, -, h⟩
      · exact (hargs h).congr hscope
      · have hok := failure?_callOf c₂ target codes
        rw [h] at hok
        cases hok
    · rw [if_neg fun hnil => harity ?_]
      · simp only [ne_eq, harity, not_false_eq_true, ↓reduceIte] at h
        cases h
        exact Scope.Above.zero_iff.2 hscope
      · have hsame := Names.calleeFaults_eq_nil.1 hnil
        rw [hsense] at hsame
        cases hsame
        rfl

theorem unary {operand : Expr} (hoperand : Strands operand) (op : Op) (fixity : Fixity)
    (sp : Span) : Strands (.unary op fixity operand sp) := by
  intro c err c' h
  unfold Expr.bodiesAround
  rw [codeOf_unary_eq] at h
  by_cases hop : fixity = .prefixed ∧ (op = .add ∨ op = .sub)
  · rw [if_pos hop, bind_eq_error] at h
    rw [if_pos (operatorFaults_eq_nil.2 hop)]
    rcases h with h | ⟨code, c₁, -, h⟩
    · exact hoperand h
    · cases h
  · rw [if_neg hop] at h
    cases h
    rw [if_neg fun hnil => hop (operatorFaults_eq_nil.1 hnil)]
    exact Scope.Above.zero_iff.2 rfl

theorem binary {left right : Expr} (hl : Strands left) (hr : Strands right) (op : Op) (sp : Span) :
    Strands (.binary op left right sp) := by
  intro c err c' h
  unfold Expr.bodiesAround
  simp only [codeOf_binary_eq, bind_eq_error] at h
  rcases h with hleft | ⟨l, c₁, hleft, hright | ⟨r, c₂, hright, h⟩⟩
  · rw [if_neg (faults_of_error hleft)]
    exact hl hleft
  · rw [if_pos (faults_of_ok hleft), ← senses_codeOf hleft]
    exact (hr hright).congr (codeOf_extends left hleft).scope
  · cases h

theorem conditional {condition positive negative : Expr} (hc : Strands condition)
    (hp : Strands positive) (hn : Strands negative) (sp : Span) :
    Strands (.conditional condition positive negative sp) := by
  intro c err c' h
  unfold Expr.bodiesAround
  simp only [codeOf_conditional_eq, bind_eq_error] at h
  rcases h with htest | ⟨t, c₁, htest, hyes | ⟨y, c₂, hyes, hno | ⟨n, c₃, -, h⟩⟩⟩
  · rw [if_neg (faults_of_error htest)]
    exact hc htest
  · have hscope := (codeOf_extends condition htest).scope
    have hfaults := faults_of_error hyes
    rw [Scope.senses_eq hscope] at hfaults
    rw [if_pos (faults_of_ok htest), if_neg hfaults, ← Scope.senses_eq hscope]
    exact (hp hyes).congr hscope
  · have hscope := (codeOf_extends condition htest).scope
    have hfaults := faults_of_ok hyes
    rw [Scope.senses_eq hscope] at hfaults
    have hscope' := (codeOf_extends positive hyes).scope.trans hscope
    rw [if_pos (faults_of_ok htest), if_pos hfaults, ← Scope.senses_eq hscope']
    exact (hn hno).congr hscope'
  · cases h

/-- Where a scope is left whether or not its inside fails, its own entry makes up for one of those
that the inside leaves. -/
theorem within {e : Expr} (he : Strands e) {k : Bool → Code → Compile Code} {c c' : Compilation}
    {err : CompileError} {base : Scope}
    (hbase : ∀ {n s}, Scope.Above n c.scope s → Scope.Above (n + 1) base s)
    (hk : ∀ used code c', failure? (k used code c') = none)
    (h : (do
      let inner ← attempt (codeOf e)
      let used ← leave
      let inner ← settle inner
      k used inner) c = .error err c') :
    Scope.Above (e.bodiesAround c.scope.senses) base c'.scope := by
  cases hr : codeOf e c with
  | ok code c₁ =>
    rw [scoped_ok hr] at h
    have hok := hk c₁.scope.pop.1 code { c₁ with scope := c₁.scope.pop.2 }
    rw [h] at hok
    cases hok
  | error e₁ c₁ =>
    rw [scoped_error hr] at h
    cases h
    exact (hbase (he hr)).pop

theorem binding {bound body : Expr} (hbound : Strands bound) (hbody : Strands body) (n : Ident)
    (sp : Span) : Strands (.binding n bound body sp) := by
  intro c err c' h
  unfold Expr.bodiesAround
  rw [codeOf_binding_eq] at h
  rcases bind_eq_error.1 h with hvalue | ⟨value, c₁, hvalue, h⟩
  · rw [if_neg (faults_of_error hvalue)]
    exact hbound hvalue
  · have hscope := (codeOf_extends bound hvalue).scope
    rw [bind_of_ok (openBinding_apply c₁ n)] at h
    rw [if_pos (faults_of_ok hvalue), ← Scope.senses_eq hscope]
    refine hbody.within (c := c₁.under n) (fun hover => hover.ofValue.congr hscope) ?_ h
    intro used inner c₂
    cases used <;> rfl

/-- The body leaves the parameters before it fails, but not the name of the function. -/
theorem function {body context : Expr} (hbody : Strands body) (hcontext : Strands context)
    (n : Ident) (params : List Ident) (sp : Span) :
    Strands (.function n params body context sp) := by
  intro c err c' h
  unfold Expr.bodiesAround
  rw [codeOf_function_eq] at h
  have hparams := head?_parameterFaults params []
  cases hrep : repeated? params [] with
  | some p =>
    simp only [hrep] at hparams h
    cases h
    rw [if_neg fun hnil => by simp [hnil] at hparams]
    exact Scope.Above.zero_iff.2 rfl
  | none =>
    simp only [hrep] at hparams h
    rw [if_pos (List.head?_eq_none_iff.1 hparams)]
    rw [← senses_inside]
    rw [bind_of_ok (openFunction_apply c n params)] at h
    cases hr : codeOf body (c.inside n params) with
    | error e₁ c₁ =>
      rw [closing_error _ params hr] at h
      cases h
      rw [if_neg (faults_of_error hr)]
      exact (Scope.Above.ofValues (hbody hr)).leaveMany.ofFunction
    | ok inner c₁ =>
      have hclosed : (c₁.closed c.functions.size params inner).scope.unmarked =
          (c.scope.pushFunction n.name c.functions.size params.length).unmarked :=
        (codeOf_extends body hr).scope_closed c.functions.size inner
      rw [closing_ok _ params hr] at h
      rw [if_pos (faults_of_ok hr), ← senses_closed hr]
      refine hcontext.within (fun hover => (hover.congr hclosed).ofFunction) ?_ h
      intro used outer c₂
      cases used <;> rfl

end Strands

mutual

theorem strands : ∀ e : Expr, Strands e
  | .number _ _ => nofun
  | .reference n sp => .reference n sp
  | .call n args sp => .call (strandsAll args) n sp
  | .unary op fixity operand sp => (strands operand).unary op fixity sp
  | .binary op left right sp => (strands left).binary (strands right) op sp
  | .binding n bound body sp => (strands bound).binding (strands body) n sp
  | .function n params body context sp => (strands body).function (strands context) n params sp
  | .conditional condition positive negative sp =>
    (strands condition).conditional (strands positive) (strands negative) sp

theorem strandsAll : ∀ es : List Expr, StrandsAll es
  | [] => nofun
  | e :: es => by
    intro c err c' h
    unfold Expr.bodiesAroundAll
    simp only [codesOf_cons_eq, bind_eq_error] at h
    rcases h with hfirst | ⟨code, c₁, hfirst, hothers | ⟨codes, c₂, -, h⟩⟩
    · rw [if_neg (faults_of_error hfirst)]
      exact strands e hfirst
    · rw [if_pos (faults_of_ok hfirst), ← senses_codeOf hfirst]
      exact (strandsAll es hothers).congr (codeOf_extends e hfirst).scope
    · cases h

end

/-- A failure leaves at most one entry for each function that the expression defines. -/
theorem length_entries_of_error {e : Expr} (h : codeOf e c = .error err c') :
    c'.scope.entries.length ≤ c.scope.entries.length + e.functionNodes := by
  obtain ⟨left, hlength, hentries, -⟩ := strands e h
  have hcount : c'.scope.entries.length = left.length + c.scope.entries.length := by
    simpa [Scope.unmarked] using congrArg List.length hentries
  have hle := e.bodiesAround_le c.scope.senses
  omega

/-- A success leaves the scope as it was, but for marks of use. A failure leaves all that was there,
and above it one entry for each function whose body it comes out of. -/
theorem codeOf_leaves (e : Expr) (c : Compilation) :
    match codeOf e c with
    | .ok _ c' => c'.scope.unmarked = c.scope.unmarked
    | .error _ c' => Scope.Above (e.bodiesAround c.scope.senses) c.scope c'.scope ∧
        (c'.scope.unmarked = c.scope.unmarked ↔ e.bodiesAround c.scope.senses = 0) := by
  cases h : codeOf e c with
  | ok code c' => exact (codeOf_extends e h).scope
  | error err c' =>
    have habove := strands e h
    refine ⟨habove, fun hsame => ?_, fun hzero => ?_⟩
    · obtain ⟨left, hlength, hentries, -⟩ := habove
      rw [hsame, List.self_eq_append_left] at hentries
      rw [← hlength, hentries, List.length_nil]
    · rw [hzero] at habove
      exact Scope.Above.zero_iff.1 habove

/-- Behind the failure of `let f(p) = bogus in x` the name `f` is still there, and can be called. -/
theorem failedBody_stays :
    let failing : Expr := .function ⟨"f", ⟨4, 5⟩⟩ [⟨"p", ⟨6, 7⟩⟩]
      (.reference ⟨"bogus", ⟨11, 16⟩⟩ ⟨11, 16⟩) (.reference ⟨"x", ⟨20, 21⟩⟩ ⟨20, 21⟩) ⟨0, 21⟩
    let later : Expr := .call ⟨"f", ⟨0, 1⟩⟩ [.reference ⟨"x", ⟨2, 3⟩⟩ ⟨2, 3⟩] ⟨0, 4⟩
    ∃ err c', codeOf failing {} = .error err c' ∧
      c'.scope.entries = [⟨"f", .function 0 1 0, false⟩] ∧
      ∃ c'', codeOf later c' = .ok (.call 0 0 [.param .x]) c'' :=
  ⟨_, _, rfl, rfl, _, rfl⟩

end Compilation

end Heightfield
