import Heightfield.Proofs.Expr.Context
import Heightfield.Proofs.Expr.Idents
import Heightfield.Proofs.Expr.Nodes
import Heightfield.Proofs.WellFormed

/-! What each fault of an expression is about: a name where it stands in the expression, or one of
its nodes. -/

namespace Heightfield

/-- Where in `e` the error has its text from. -/
def CompileError.Of (e : Expr) : CompileError → Prop
  | .unresolvedReference name span _ | .notAValue name span | .notCallable name span
  | .duplicateParameter name span => ⟨name, span⟩ ∈ e.idents
  | .arityMismatch name expected found span => found ≠ expected ∧
      ∃ n args, .call n args span ∈ e.nodes ∧ n.name = name ∧ args.length = found
  | .unsupportedOperator symbol place span => ∃ op fixity operand,
      .unary op fixity operand span ∈ e.nodes ∧
        .unsupportedOperator symbol place span ∈ operatorFaults op fixity span

theorem CompileError.Of.plug {part : Expr} {err : CompileError} (h : err.Of part)
    (layer : Layer) : err.Of (layer.plug part) := by
  have hidents : ∀ i ∈ part.idents, i ∈ (layer.plug part).idents := fun i hi => by
    cases layer with
    | argument => exact List.mem_cons_of_mem _ (Expr.mem_identsAll.2 ⟨part, by simp, hi⟩)
    | _ => simp [Layer.plug, Expr.idents, hi]
  have hnodes : ∀ node ∈ part.nodes, node ∈ (layer.plug part).nodes := fun node hnode => by
    cases layer with
    | argument => exact List.mem_cons_of_mem _ (Expr.mem_nodesAll.2 ⟨part, by simp, hnode⟩)
    | _ => simp [Layer.plug, Expr.nodes, hnode]
  cases err with
  | arityMismatch name expected found span =>
    obtain ⟨hne, n, args, hnode, hrest⟩ := h
    exact ⟨hne, n, args, hnodes _ hnode, hrest⟩
  | unsupportedOperator symbol fixity span =>
    obtain ⟨op, fixity, operand, hnode, hfault⟩ := h
    exact ⟨op, fixity, operand, hnodes _ hnode, hfault⟩
  | _ => exact hidents _ h

section Own

variable {names : Names} {n : Ident} {err : CompileError}

theorem Names.mem_referenceFaults (h : err ∈ names.referenceFaults n) :
    err = names.unresolved n ∨ err = .notAValue n.name n.span := by
  unfold referenceFaults at h
  split at h
  · cases h
  · exact .inr (List.mem_singleton.1 h)
  · exact .inl (List.mem_singleton.1 h)

theorem Names.mem_calleeFaults {found : Nat} {span : Span}
    (h : err ∈ names.calleeFaults n found span) :
    err = names.unresolved n ∨ err = .notCallable n.name n.span ∨
      ∃ arity, found ≠ arity ∧ err = .arityMismatch n.name arity found span := by
  unfold calleeFaults at h
  split at h
  · exact .inr (.inl (List.mem_singleton.1 h))
  · next arity _ =>
    split at h
    · cases h
    · next hne => exact .inr (.inr ⟨arity, hne, List.mem_singleton.1 h⟩)
  · exact .inl (List.mem_singleton.1 h)

theorem mem_operatorFaults {op : Op} {fixity : Fixity} {span : Span}
    (h : err ∈ operatorFaults op fixity span) :
    ∃ place, err = .unsupportedOperator op.symbol place span := by
  unfold operatorFaults at h
  split at h
  · cases h
  · exact ⟨_, List.mem_singleton.1 h⟩

theorem mem_parameterFaults {ps : List Ident} {earlier : List String}
    (h : err ∈ parameterFaults ps earlier) : ∃ p ∈ ps, err = .duplicateParameter p.name p.span := by
  induction ps generalizing earlier with
  | nil => cases h
  | cons p ps ih =>
    rcases List.mem_append.1 h with h | h
    · split at h
      · exact ⟨p, List.mem_cons_self, List.mem_singleton.1 h⟩
      · cases h
    · obtain ⟨q, hq, herr⟩ := ih h
      exact ⟨q, List.mem_cons_of_mem p hq, herr⟩

end Own

namespace Expr

mutual

theorem faults_origin : ∀ (e : Expr) (names : Names), ∀ err ∈ e.faults names, err.Of e
  | number _ _, _, _, h => nomatch h
  | reference n _, names, err, h => by
    rcases names.mem_referenceFaults h with rfl | rfl <;> exact List.mem_singleton_self n
  | call n args span, names, err, h => by
    rcases List.mem_append.1 h with h | h
    · rcases names.mem_calleeFaults h with rfl | rfl | ⟨arity, hne, rfl⟩
      · exact List.mem_cons_self
      · exact List.mem_cons_self
      · exact ⟨hne, n, args, List.mem_cons_self, rfl, rfl⟩
    · obtain ⟨arg, harg, herr⟩ := faultsAll_origin args names err h
      obtain ⟨earlier, later, rfl⟩ := List.append_of_mem harg
      exact herr.plug (.argument n earlier later span)
  | unary op fixity operand span, names, err, h => by
    rcases List.mem_append.1 h with h | h
    · obtain ⟨place, rfl⟩ := mem_operatorFaults h
      exact ⟨op, fixity, operand, List.mem_cons_self, h⟩
    · exact (faults_origin operand names err h).plug (.operand op fixity span)
  | binary op left right span, names, err, h => by
    rcases List.mem_append.1 h with h | h
    · exact (faults_origin left names err h).plug (.left op right span)
    · exact (faults_origin right names err h).plug (.right op left span)
  | binding n bound body span, names, err, h => by
    rcases List.mem_append.1 h with h | h
    · exact (faults_origin bound names err h).plug (.bound n body span)
    · exact (faults_origin body _ err h).plug (.body n bound span)
  | function n params body context span, names, err, h => by
    simp only [faults, List.mem_append] at h
    rcases h with (h | h) | h
    · obtain ⟨p, hp, rfl⟩ := mem_parameterFaults h
      exact List.mem_cons_of_mem _ (List.mem_append_left _ hp)
    · exact (faults_origin body _ err h).plug (.inner n params context span)
    · exact (faults_origin context _ err h).plug (.context n params body span)
  | conditional condition positive negative span, names, err, h => by
    simp only [faults, List.mem_append] at h
    rcases h with (h | h) | h
    · exact (faults_origin condition names err h).plug (.condition positive negative span)
    · exact (faults_origin positive names err h).plug (.positive condition negative span)
    · exact (faults_origin negative names err h).plug (.negative condition positive span)

theorem faultsAll_origin : ∀ (es : List Expr) (names : Names), ∀ err ∈ faultsAll es names,
    ∃ e ∈ es, err.Of e
  | [], _, _, h => nomatch h
  | e :: es, names, err, h => by
    rcases List.mem_append.1 h with h | h
    · exact ⟨e, List.mem_cons_self, faults_origin e names err h⟩
    · obtain ⟨e', he', herr⟩ := faultsAll_origin es names err h
      exact ⟨e', List.mem_cons_of_mem e he', herr⟩

end

end Expr

end Heightfield
