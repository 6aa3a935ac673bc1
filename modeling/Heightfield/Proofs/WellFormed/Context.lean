import Heightfield.Proofs.Expr.Context
import Heightfield.Proofs.WellFormed

/-! What is well-formed has well-formed parts, each among the names around it, and stays so when a
part is replaced by another that is well-formed there. -/

namespace Heightfield.WellFormed

variable {names : Names} {e : Expr}

theorem plug {layer : Layer} (h : WellFormed names (layer.plug e)) : ∃ inner,
    WellFormed inner e ∧ ∀ e', WellFormed inner e' → WellFormed names (layer.plug e') := by
  cases layer with
  | argument n earlier later s =>
    cases h with
    | call resolved parts =>
      refine ⟨names, parts e (by simp), fun e' he' => .call ?_ fun arg harg => ?_⟩
      · simpa using resolved
      · rcases List.mem_append.1 harg with harg | harg
        · exact parts arg (List.mem_append_left _ harg)
        · rcases List.mem_cons.1 harg with rfl | harg
          · exact he'
          · exact parts arg (List.mem_append_right _ (List.mem_cons_of_mem _ harg))
  | operand op fixity s =>
    cases h with
    | unary sign part => exact ⟨names, part, fun _ => .unary sign⟩
  | left op right s =>
    cases h with
    | binary first second => exact ⟨names, first, fun _ h => .binary h second⟩
  | right op left s =>
    cases h with
    | binary first second => exact ⟨names, second, fun _ h => .binary first h⟩
  | bound n body s =>
    cases h with
    | binding first second => exact ⟨names, first, fun _ h => .binding h second⟩
  | body n bound s =>
    cases h with
    | binding first second => exact ⟨names.bind n, second, fun _ h => .binding first h⟩
  | inner n params context s =>
    cases h with
    | function distinct first second =>
      exact ⟨names.enter n params, first, fun _ h => .function distinct h second⟩
  | context n params body s =>
    cases h with
    | function distinct first second =>
      exact ⟨names.define n params, second, fun _ h => .function distinct first h⟩
  | condition positive negative s =>
    cases h with
    | conditional first second third => exact ⟨names, first, fun _ h => .conditional h second third⟩
  | positive condition negative s =>
    cases h with
    | conditional first second third => exact ⟨names, second, fun _ h => .conditional first h third⟩
  | negative condition positive s =>
    cases h with
    | conditional first second third =>
      exact ⟨names, third, fun _ h => .conditional first second h⟩

theorem fill {C : Context} (h : WellFormed names (C.fill e)) : ∃ inner,
    WellFormed inner e ∧ ∀ e', WellFormed inner e' → WellFormed names (C.fill e') := by
  induction C generalizing names with
  | nil => exact ⟨names, h, fun _ => id⟩
  | cons layer C ih =>
    obtain ⟨outer, hpart, hplug⟩ := plug h
    obtain ⟨inner, he, hfill⟩ := ih hpart
    exact ⟨inner, he, fun e' he' => hplug _ (hfill e' he')⟩

end Heightfield.WellFormed
