import Heightfield.Proofs.Expr.Calls

/-! Where an expression takes a name from around it: at the references and calls that stand under no
binder of that name. The lists of its free names and of its outer calls hold the names of these
places and no others. -/

namespace Heightfield

/-- The names that the node binds over the part left out. A function is bound over its own body. -/
def Layer.binds : Layer → List String
  | .body n _ _ | .context n _ _ _ => [n.name]
  | .inner n params _ _ => n.name :: params.map (·.name)
  | _ => []

/-- The names bound around the place, within the expression. -/
def Context.binds (C : Context) : List String := C.flatMap Layer.binds

theorem Context.not_mem_binds_cons {m : String} {layer : Layer} {C : Context} :
    m ∉ Context.binds (layer :: C) ↔ m ∉ layer.binds ∧ m ∉ C.binds := by
  rw [binds, List.flatMap_cons, List.mem_append, not_or]
  rfl

namespace Expr

/-- A node with `P` stands at a place of the expression where no binder has taken `m`. -/
def Occurs (P : Expr → Prop) (m : String) (e : Expr) : Prop :=
  ∃ (C : Context) (node : Expr), C.fill node = e ∧ P node ∧ m ∉ C.binds

def IsReference (m : String) : Expr → Prop
  | reference n _ => n.name = m
  | _ => False

def IsCall (m : String) : Expr → Prop
  | call n _ _ => n.name = m
  | _ => False

/-- A reference in the expression takes `m` from around it. -/
def Refers (e : Expr) (m : String) : Prop := Occurs (IsReference m) m e

/-- A call in the expression takes `m` from around it. -/
def Calls (e : Expr) (m : String) : Prop := Occurs (IsCall m) m e

section Parts

variable {P Q : Expr → Prop} {m : String}

/-- It is at the node itself or in one of its parts, if the node does not bind `m` there. -/
theorem occurs_iff {e : Expr} : Occurs P m e ↔
    P e ∨ ∃ layer part, Layer.plug layer part = e ∧ m ∉ layer.binds ∧ Occurs P m part := by
  constructor
  · rintro ⟨C, node, hfill, hnode, hm⟩
    cases C with
    | nil => exact .inl (hfill ▸ hnode)
    | cons layer C =>
      obtain ⟨hlayer, hm⟩ := Context.not_mem_binds_cons.1 hm
      exact .inr ⟨layer, Context.fill C node, hfill, hlayer, C, node, rfl, hnode, hm⟩
  · rintro (h | ⟨layer, part, rfl, hlayer, C, node, rfl, hnode, hm⟩)
    · exact ⟨[], e, rfl, h, List.not_mem_nil⟩
    · exact ⟨layer :: C, node, rfl, hnode, Context.not_mem_binds_cons.2 ⟨hlayer, hm⟩⟩

theorem occurs_or {e : Expr} :
    Occurs (fun e => P e ∨ Q e) m e ↔ Occurs P m e ∨ Occurs Q m e := by
  constructor
  · rintro ⟨C, node, hfill, h | h, hm⟩
    · exact .inl ⟨C, node, hfill, h, hm⟩
    · exact .inr ⟨C, node, hfill, h, hm⟩
  · rintro (⟨C, node, hfill, h, hm⟩ | ⟨C, node, hfill, h, hm⟩)
    · exact ⟨C, node, hfill, .inl h, hm⟩
    · exact ⟨C, node, hfill, .inr h, hm⟩

variable {v : Float} {n : Ident} {args : List Expr} {params : List Ident} {op : Op}
  {fixity : Fixity} {operand left right bound body context condition positive negative : Expr}
  {s : Span}

theorem occurs_number : Occurs P m (number v s) ↔ P (number v s) := by
  rw [occurs_iff]
  refine or_iff_left ?_
  rintro ⟨layer, part, hplug, -⟩
  cases layer <;> cases hplug

theorem occurs_reference : Occurs P m (reference n s) ↔ P (reference n s) := by
  rw [occurs_iff]
  refine or_iff_left ?_
  rintro ⟨layer, part, hplug, -⟩
  cases layer <;> cases hplug

theorem occurs_call : Occurs P m (call n args s) ↔
    P (call n args s) ∨ ∃ arg ∈ args, Occurs P m arg := by
  rw [occurs_iff]
  refine or_congr_right ⟨?_, ?_⟩
  · rintro ⟨layer, part, hplug, -, h⟩
    cases layer <;> cases hplug
    exact ⟨part, List.mem_append_right _ List.mem_cons_self, h⟩
  · rintro ⟨arg, harg, h⟩
    obtain ⟨earlier, later, rfl⟩ := List.append_of_mem harg
    exact ⟨.argument n earlier later s, arg, rfl, List.not_mem_nil, h⟩

theorem occurs_unary : Occurs P m (unary op fixity operand s) ↔
    P (unary op fixity operand s) ∨ Occurs P m operand := by
  rw [occurs_iff]
  refine or_congr_right ⟨?_, fun h => ⟨.operand op fixity s, operand, rfl, List.not_mem_nil, h⟩⟩
  rintro ⟨layer, part, hplug, -, h⟩
  cases layer <;> cases hplug
  exact h

theorem occurs_binary : Occurs P m (binary op left right s) ↔
    P (binary op left right s) ∨ Occurs P m left ∨ Occurs P m right := by
  rw [occurs_iff]
  refine or_congr_right ⟨?_, ?_⟩
  · rintro ⟨layer, part, hplug, -, h⟩
    cases layer <;> cases hplug
    · exact .inl h
    · exact .inr h
  · rintro (h | h)
    · exact ⟨.left op right s, left, rfl, List.not_mem_nil, h⟩
    · exact ⟨.right op left s, right, rfl, List.not_mem_nil, h⟩

theorem occurs_binding : Occurs P m (binding n bound body s) ↔
    P (binding n bound body s) ∨ Occurs P m bound ∨ m ≠ n.name ∧ Occurs P m body := by
  rw [occurs_iff]
  refine or_congr_right ⟨?_, ?_⟩
  · rintro ⟨layer, part, hplug, hm, h⟩
    cases layer <;> cases hplug
    · exact .inl h
    · exact .inr ⟨List.ne_of_not_mem_cons hm, h⟩
  · rintro (h | ⟨hm, h⟩)
    · exact ⟨.bound n body s, bound, rfl, List.not_mem_nil, h⟩
    · exact ⟨.body n bound s, body, rfl, by simpa [Layer.binds] using hm, h⟩

theorem occurs_function : Occurs P m (function n params body context s) ↔
    P (function n params body context s) ∨
      m ≠ n.name ∧ (m ∉ params.map (·.name) ∧ Occurs P m body ∨ Occurs P m context) := by
  rw [occurs_iff]
  refine or_congr_right ⟨?_, ?_⟩
  · rintro ⟨layer, part, hplug, hm, h⟩
    cases layer <;> cases hplug
    · exact ⟨List.ne_of_not_mem_cons hm, .inl ⟨List.not_mem_of_not_mem_cons hm, h⟩⟩
    · exact ⟨List.ne_of_not_mem_cons hm, .inr h⟩
  · rintro ⟨hm, ⟨hparams, h⟩ | h⟩
    · exact ⟨.inner n params context s, body, rfl,
        List.not_mem_cons_of_ne_of_not_mem hm hparams, h⟩
    · exact ⟨.context n params body s, context, rfl, by simpa [Layer.binds] using hm, h⟩

theorem occurs_conditional : Occurs P m (conditional condition positive negative s) ↔
    P (conditional condition positive negative s) ∨
      Occurs P m condition ∨ Occurs P m positive ∨ Occurs P m negative := by
  rw [occurs_iff]
  refine or_congr_right ⟨?_, ?_⟩
  · rintro ⟨layer, part, hplug, -, h⟩
    cases layer <;> cases hplug
    · exact .inl h
    · exact .inr (.inl h)
    · exact .inr (.inr h)
  · rintro (h | h | h)
    · exact ⟨.condition positive negative s, condition, rfl, List.not_mem_nil, h⟩
    · exact ⟨.positive condition negative s, positive, rfl, List.not_mem_nil, h⟩
    · exact ⟨.negative condition positive s, negative, rfl, List.not_mem_nil, h⟩

variable (P) [DecidablePred P] (m)

mutual

def decideOccurs : ∀ e : Expr, Decidable (Occurs P m e)
  | number _ _ => decidable_of_iff _ occurs_number.symm
  | reference _ _ => decidable_of_iff _ occurs_reference.symm
  | call _ args _ =>
    have := decideOccursAny args
    decidable_of_iff _ occurs_call.symm
  | unary _ _ operand _ =>
    have := decideOccurs operand
    decidable_of_iff _ occurs_unary.symm
  | binary _ left right _ =>
    have := decideOccurs left
    have := decideOccurs right
    decidable_of_iff _ occurs_binary.symm
  | binding _ bound body _ =>
    have := decideOccurs bound
    have := decideOccurs body
    decidable_of_iff _ occurs_binding.symm
  | function _ _ body context _ =>
    have := decideOccurs body
    have := decideOccurs context
    decidable_of_iff _ occurs_function.symm
  | conditional condition positive negative _ =>
    have := decideOccurs condition
    have := decideOccurs positive
    have := decideOccurs negative
    decidable_of_iff _ occurs_conditional.symm

def decideOccursAny : ∀ es : List Expr, Decidable (∃ e ∈ es, Occurs P m e)
  | [] => isFalse nofun
  | e :: es =>
    have := decideOccurs e
    have := decideOccursAny es
    decidable_of_iff (Occurs P m e ∨ ∃ e ∈ es, Occurs P m e) (by simp)

end

instance (e : Expr) : Decidable (Occurs P m e) := decideOccurs P m e

end Parts

instance (m : String) : DecidablePred (IsReference m)
  | reference n _ => inferInstanceAs (Decidable (n.name = m))
  | number .. | call .. | unary .. | binary .. | binding .. | function .. | conditional .. =>
    isFalse id

instance (m : String) : DecidablePred (IsCall m)
  | call n _ _ => inferInstanceAs (Decidable (n.name = m))
  | number .. | reference .. | unary .. | binary .. | binding .. | function .. | conditional .. =>
    isFalse id

instance (e : Expr) (m : String) : Decidable (e.Refers m) :=
  inferInstanceAs (Decidable (Occurs _ m e))

instance (e : Expr) (m : String) : Decidable (e.Calls m) :=
  inferInstanceAs (Decidable (Occurs _ m e))

section Lists

variable {m : String}

mutual

theorem mem_outerCalls : ∀ e : Expr, m ∈ e.outerCalls ↔ e.Calls m
  | number _ _ => by simp [outerCalls, Calls, occurs_number, IsCall]
  | reference _ _ => by simp [outerCalls, Calls, occurs_reference, IsCall]
  | call n args _ => by
    rw [outerCalls, List.mem_cons, mem_outerCallsAll args, Calls, occurs_call]
    exact or_congr_left eq_comm
  | unary _ _ operand _ => by
    rw [outerCalls, mem_outerCalls operand, Calls, Calls, occurs_unary]
    exact (or_iff_right id).symm
  | binary _ left right _ => by
    rw [outerCalls, List.mem_append, mem_outerCalls left, mem_outerCalls right]
    exact (occurs_binary.trans (or_iff_right id)).symm
  | binding n bound body _ => by
    rw [mem_outerCalls_binding, mem_outerCalls bound, mem_outerCalls body, and_comm]
    exact (occurs_binding.trans (or_iff_right id)).symm
  | function n params body context _ => by
    rw [mem_outerCalls_function, mem_outerCalls body, mem_outerCalls context, and_comm,
      and_comm (a := body.Calls m)]
    exact (occurs_function.trans (or_iff_right id)).symm
  | conditional condition positive negative _ => by
    rw [outerCalls, List.mem_append, List.mem_append, mem_outerCalls condition,
      mem_outerCalls positive, mem_outerCalls negative, or_assoc]
    exact (occurs_conditional.trans (or_iff_right id)).symm

theorem mem_outerCallsAll : ∀ es : List Expr, m ∈ outerCallsAll es ↔ ∃ e ∈ es, e.Calls m
  | [] => by simp [outerCallsAll]
  | e :: es => by
    simp only [outerCallsAll, List.mem_append, mem_outerCalls e, mem_outerCallsAll es,
      List.mem_cons, exists_eq_or_imp]

end

mutual

theorem mem_freeNames_occurs : ∀ e : Expr,
    m ∈ e.freeNames ↔ Occurs (fun node => IsReference m node ∨ IsCall m node) m e
  | number _ _ => by simp [freeNames, occurs_number, IsReference, IsCall]
  | reference _ _ => by simp [freeNames, occurs_reference, IsReference, IsCall, eq_comm]
  | call n args _ => by
    rw [freeNames, List.mem_cons, mem_freeNamesAll_occurs args, occurs_call]
    exact or_congr_left (eq_comm.trans (or_iff_right id).symm)
  | unary _ _ operand _ => by
    rw [freeNames, mem_freeNames_occurs operand, occurs_unary]
    exact (or_iff_right (or_self_iff.1)).symm
  | binary _ left right _ => by
    rw [freeNames, List.mem_append, mem_freeNames_occurs left, mem_freeNames_occurs right,
      occurs_binary]
    exact (or_iff_right or_self_iff.1).symm
  | binding n bound body _ => by
    rw [mem_freeNames_binding, mem_freeNames_occurs bound, mem_freeNames_occurs body, and_comm,
      occurs_binding]
    exact (or_iff_right or_self_iff.1).symm
  | function n params body context _ => by
    rw [mem_freeNames_function, mem_freeNames_occurs body, mem_freeNames_occurs context, and_comm,
      and_comm (a := Occurs _ m body), occurs_function]
    exact (or_iff_right or_self_iff.1).symm
  | conditional condition positive negative _ => by
    rw [freeNames, List.mem_append, List.mem_append, mem_freeNames_occurs condition,
      mem_freeNames_occurs positive, mem_freeNames_occurs negative, or_assoc, occurs_conditional]
    exact (or_iff_right or_self_iff.1).symm

theorem mem_freeNamesAll_occurs : ∀ es : List Expr, m ∈ freeNamesAll es ↔
    ∃ e ∈ es, Occurs (fun node => IsReference m node ∨ IsCall m node) m e
  | [] => by simp [freeNamesAll]
  | e :: es => by
    simp only [freeNamesAll, List.mem_append, mem_freeNames_occurs e, mem_freeNamesAll_occurs es,
      List.mem_cons, exists_eq_or_imp]

end

/-- A name is free in an expression where a reference or a call takes it from around it. -/
theorem mem_freeNames {e : Expr} : m ∈ e.freeNames ↔ e.Refers m ∨ e.Calls m :=
  (mem_freeNames_occurs e).trans occurs_or

/-- What is called by its name is a free name. -/
theorem mem_freeNames_of_outerCalls {e : Expr} (h : m ∈ e.outerCalls) : m ∈ e.freeNames :=
  mem_freeNames.2 (.inr ((mem_outerCalls e).1 h))

end Lists

end Expr

end Heightfield
