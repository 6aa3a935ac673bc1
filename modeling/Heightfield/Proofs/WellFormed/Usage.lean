import Heightfield.Proofs.Expr.Occurrence
import Heightfield.Proofs.WellFormed.Free

/-! How a well-formed expression uses the names around it: it refers to values and calls functions.
A name that stands for one of the two is therefore free only where it is used as that. -/

namespace Heightfield

namespace Names

/-- The names around what is plugged into the layer. -/
def within (names : Names) : Layer → Names
  | .body n _ _ => names.bind n
  | .inner n params _ _ => names.enter n params
  | .context n params _ _ => names.define n params
  | _ => names

variable {names : Names} {n : Ident} {params : List Ident} {m : String}

theorem sense?_bind : (names.bind n).sense? m =
    if m = n.name then some .value else names.sense? m :=
  sense?_cons names n m .value

theorem sense?_define : (names.define n params).sense? m =
    if m = n.name then some (.function params.length) else names.sense? m :=
  sense?_cons names n m (.function params.length)

/-- The parameters hide the function, and the function what is around it. -/
theorem sense?_enter : (names.enter n params).sense? m =
    if m ∈ params.map (·.name) then some .value else (names.define n params).sense? m :=
  sense?_params (names.define n params) params m

theorem sense?_within {layer : Layer} (h : m ∉ layer.binds) :
    (names.within layer).sense? m = names.sense? m := by
  cases layer with
  | body n _ _ => exact sense?_bind.trans (if_neg (List.ne_of_not_mem_cons h))
  | context n params _ _ => exact sense?_define.trans (if_neg (List.ne_of_not_mem_cons h))
  | inner n params _ _ =>
    refine sense?_enter.trans ((if_neg (List.not_mem_of_not_mem_cons h)).trans ?_)
    exact sense?_define.trans (if_neg (List.ne_of_not_mem_cons h))
  | _ => rfl

end Names

namespace WellFormed

variable {names : Names} {e : Expr} {m : String}

theorem within {layer : Layer} (h : WellFormed names (layer.plug e)) :
    WellFormed (names.within layer) e := by
  cases layer with
  | argument n earlier later s =>
    cases h with
    | call resolved parts => exact parts e (List.mem_append_right _ List.mem_cons_self)
  | _ =>
    cases h
    assumption

/-- A node is well-formed among names that agree on what no binder around it has taken. -/
theorem of_occurs {P : Expr → Prop} (h : WellFormed names e) (ho : e.Occurs P m) :
    ∃ inner node, WellFormed inner node ∧ P node ∧ inner.sense? m = names.sense? m := by
  obtain ⟨C, node, rfl, hnode, hm⟩ := ho
  induction C generalizing names with
  | nil => exact ⟨names, node, h, hnode, rfl⟩
  | cons layer C ih =>
    obtain ⟨hlayer, hm⟩ := Context.not_mem_binds_cons.1 hm
    obtain ⟨inner, node', hinner, hnode', hsense⟩ := ih h.within hm
    exact ⟨inner, node', hinner, hnode', hsense.trans (Names.sense?_within hlayer)⟩

theorem sense?_of_refers (h : WellFormed names e) (hr : e.Refers m) :
    names.sense? m = some .value := by
  obtain ⟨inner, node, hnode, href, hsense⟩ := h.of_occurs hr
  cases hnode with
  | reference resolved =>
    cases href
    exact hsense.symm.trans resolved
  | _ => cases href

theorem sense?_of_calls (h : WellFormed names e) (hc : e.Calls m) :
    ∃ arity, names.sense? m = some (.function arity) := by
  obtain ⟨inner, node, hnode, hcall, hsense⟩ := h.of_occurs hc
  cases hnode with
  | call resolved _ =>
    cases hcall
    exact ⟨_, hsense.symm.trans resolved⟩
  | _ => cases hcall

theorem mem_freeNames_of_value (h : WellFormed names e) (hm : names.sense? m = some .value) :
    m ∈ e.freeNames ↔ e.Refers m := by
  refine Expr.mem_freeNames.trans (or_iff_left fun hc => ?_)
  obtain ⟨arity, hcalled⟩ := h.sense?_of_calls hc
  cases hm.symm.trans hcalled

theorem mem_freeNames_of_function {arity : Nat} (h : WellFormed names e)
    (hm : names.sense? m = some (.function arity)) : m ∈ e.freeNames ↔ e.Calls m := by
  refine Expr.mem_freeNames.trans (or_iff_right fun hr => ?_)
  cases hm.symm.trans (h.sense?_of_refers hr)

end WellFormed

end Heightfield
