import Heightfield.Proofs.Alpha.Compilation
import Heightfield.Proofs.Expr.Readability

/-! The canonical text of a tree without infinite numbers identifies it, and with it all that is
compiled from it. -/

namespace Heightfield

open Pairing

theorem Pairing.Diagonal.enter_names {ρ : Pairing} (h : ρ.Diagonal) {ps ps' : List Ident}
    (hnames : ps'.map (·.name) = ps.map (·.name)) : (ρ.enter ps ps').Diagonal := by
  have hzip : ∀ qs : List Ident, ρ.enter ps qs =
      ((ps.map (·.name)).zip (qs.map (·.name))).reverse ++ ρ := fun qs => by
    rw [List.zip_map]
    rfl
  rw [hzip, hnames, ← hzip]
  exact h.enter ps

mutual

/-- Trees that are the same but for spans differ in no bound name. -/
theorem Alpha.of_bare : ∀ {e e' : Expr} {ρ : Pairing}, ρ.Diagonal → e.bare = e'.bare →
    Alpha ρ e e'
  | .number _ _, e', _, _, h => by
    cases e' with
    | number => cases h; exact .number
    | _ => cases h
  | .reference n _, e', _, hρ, h => by
    cases e' with
    | reference n' =>
      simp only [Expr.bare, Expr.reference.injEq, Ident.bare, Ident.mk.injEq, and_true] at h
      refine .reference ?_
      rw [← h]
      exact hρ n.name
    | _ => cases h
  | .call n args _, e', _, hρ, h => by
    cases e' with
    | call n' args' =>
      simp only [Expr.bare, Expr.call.injEq, Ident.bare, Ident.mk.injEq, and_true] at h
      refine .call ?_ (AlphaAll.of_bare hρ h.2)
      rw [← h.1]
      exact hρ n.name
    | _ => cases h
  | .unary _ _ operand _, e', _, hρ, h => by
    cases e' with
    | unary op' fixity' operand' =>
      simp only [Expr.bare, Expr.unary.injEq, and_true] at h
      obtain ⟨rfl, rfl, h⟩ := h
      exact .unary (Alpha.of_bare hρ h)
    | _ => cases h
  | .binary _ left right _, e', _, hρ, h => by
    cases e' with
    | binary op' left' right' =>
      simp only [Expr.bare, Expr.binary.injEq, and_true] at h
      obtain ⟨rfl, hl, hr⟩ := h
      exact .binary (Alpha.of_bare hρ hl) (Alpha.of_bare hρ hr)
    | _ => cases h
  | .binding n bound body _, e', _, hρ, h => by
    cases e' with
    | binding n' bound' body' =>
      simp only [Expr.bare, Expr.binding.injEq, Ident.bare, Ident.mk.injEq, and_true] at h
      obtain ⟨hn, hbound, hbody⟩ := h
      refine .binding (Alpha.of_bare hρ hbound) (Alpha.of_bare ?_ hbody)
      rw [← hn]
      exact hρ.cons n.name
    | _ => cases h
  | .function n params body context _, e', ρ, hρ, h => by
    cases e' with
    | function n' params' body' context' =>
      simp only [Expr.bare, Expr.function.injEq, Ident.bare, Ident.mk.injEq, and_true] at h
      obtain ⟨hn, hparams, hbody, hcontext⟩ := h
      have hnames : params'.map (·.name) = params.map (·.name) := by
        have hmap := congrArg (List.map (·.name)) hparams
        rw [List.map_map, List.map_map] at hmap
        exact hmap.symm
      have hcons : Diagonal ((n.name, n'.name) :: ρ) := by
        rw [← hn]
        exact hρ.cons n.name
      refine .function ?_ (by rw [hnames]) (Alpha.of_bare (hcons.enter_names hnames) hbody)
        (Alpha.of_bare hcons hcontext)
      rw [← List.length_map (·.name), hnames, List.length_map]
    | _ => cases h
  | .conditional condition positive negative _, e', _, hρ, h => by
    cases e' with
    | conditional condition' positive' negative' =>
      simp only [Expr.bare, Expr.conditional.injEq, and_true] at h
      obtain ⟨hc, hp, hn⟩ := h
      exact .conditional (Alpha.of_bare hρ hc) (Alpha.of_bare hρ hp) (Alpha.of_bare hρ hn)
    | _ => cases h

theorem AlphaAll.of_bare : ∀ {es es' : List Expr} {ρ : Pairing}, ρ.Diagonal →
    Expr.bareAll es = Expr.bareAll es' → AlphaAll ρ es es'
  | [], es', _, _, h => by
    cases es' with
    | nil => exact .nil
    | cons e' es' => cases h
  | e :: es, es', _, hρ, h => by
    cases es' with
    | nil => cases h
    | cons e' es' =>
      simp only [Expr.bareAll, List.cons.injEq] at h
      exact .cons (Alpha.of_bare hρ h.1) (AlphaAll.of_bare hρ h.2)

end

namespace Expr

/-- A parsed tree without an infinite number is told by its tokens. -/
theorem Legible.allTold {e : Expr} (h : e.Legible)
    (hfinite : ∀ value s, .number value s ∈ e.nodes → value.isInf = false) : e.AllTold := by
  intro node hnode
  have hread := h node hnode
  cases node with
  | number value s =>
    obtain ⟨k, hk, rfl⟩ := hread
    have hinf := hfinite _ s hnode
    rw [Binary64.isInf_toFloat hk, decide_eq_false_iff_not] at hinf
    exact ⟨k, Nat.lt_of_le_of_ne hk hinf, rfl⟩
  | unary op fixity operand s => exact hread.1
  | _ => trivial

theorem bare_eq_of_text {e e' : Expr} (h : e.Legible) (h' : e'.Legible) (htold : e.AllTold)
    (htold' : e'.AllTold) (htext : e.text = e'.text) : e.bare = e'.bare := by
  obtain ⟨lexemes, hlex, htokens⟩ := lex_text h
  obtain ⟨lexemes', hlex', htokens'⟩ := lex_text h'
  rw [← htext, hlex] at hlex'
  cases hlex'
  have heq : e.tokens ++ [] = e'.tokens ++ [] := by rw [← htokens, ← htokens']
  exact (tellsApart e htold e' [] [] htold' uncalled_nil uncalled_nil heq).1

end Expr

/-- Two parsed trees without infinite numbers that have one canonical text are the same but for
spans. So both compile or neither does, and to the same program. -/
theorem text_identifies {source source' : String} {e e' : Expr} (hparse : parse source = .ok e)
    (hparse' : parse source' = .ok e')
    (hfinite : ∀ value s, .number value s ∈ e.nodes → value.isInf = false)
    (hfinite' : ∀ value s, .number value s ∈ e'.nodes → value.isInf = false)
    (htext : e.text = e'.text) :
    e.bare = e'.bare ∧
      ((∃ evaluator, e.compile = .ok evaluator) ↔ ∃ evaluator, e'.compile = .ok evaluator) ∧
      ∀ evaluator evaluator', e.compile = .ok evaluator → e'.compile = .ok evaluator' →
        evaluator'.program = evaluator.program ∧
        evaluator'.isDeterministic = evaluator.isDeterministic ∧
        ∀ draws point, evaluator'.eval draws point = evaluator.eval draws point ∧
          ∀ v, evaluator'.Returns draws point v ↔ evaluator.Returns draws point v := by
  have hlegible := parse_legible hparse
  have hlegible' := parse_legible hparse'
  have hbare := Expr.bare_eq_of_text hlegible hlegible' (hlegible.allTold hfinite)
    (hlegible'.allTold hfinite') htext
  have halpha : Alpha [] e e' := .of_bare (fun _ => rfl) hbare
  have halpha' : Alpha [] e' e := .of_bare (fun _ => rfl) hbare.symm
  refine ⟨hbare, ⟨?_, ?_⟩, fun evaluator evaluator' h h' => ?_⟩
  · rintro ⟨evaluator, h⟩
    obtain ⟨evaluator', h', -⟩ := halpha.compile h
    exact ⟨evaluator', h'⟩
  · rintro ⟨evaluator', h'⟩
    obtain ⟨evaluator, h, -⟩ := halpha'.compile h'
    exact ⟨evaluator, h⟩
  · obtain ⟨_, hcompiled, hprogram, hrandom⟩ := halpha.compile h
    cases hcompiled.symm.trans h'
    exact ⟨hprogram, congrArg (!·) hrandom, Evaluator.eval_of_program hprogram⟩

/-- A form under an operator, in two spellings. -/
theorem boundLeft_identified : ∃ e e', parse "(let a = x in a)+y" = .ok e ∧
    parse "((let a = x in (a))) + y" = .ok e' ∧ e.text = e'.text ∧ e.bare = e'.bare ∧
    ∃ evaluator evaluator', e.compile = .ok evaluator ∧ e'.compile = .ok evaluator' ∧
      evaluator'.program = evaluator.program := by
  let e : Expr := .binary .add (.binding ⟨"a", ⟨5, 6⟩⟩ (.reference ⟨"x", ⟨9, 10⟩⟩ ⟨9, 10⟩)
    (.reference ⟨"a", ⟨14, 15⟩⟩ ⟨14, 15⟩) ⟨1, 15⟩) (.reference ⟨"y", ⟨17, 18⟩⟩ ⟨17, 18⟩) ⟨1, 18⟩
  let e' : Expr := .binary .add (.binding ⟨"a", ⟨6, 7⟩⟩ (.reference ⟨"x", ⟨10, 11⟩⟩ ⟨10, 11⟩)
    (.reference ⟨"a", ⟨16, 17⟩⟩ ⟨16, 17⟩) ⟨2, 18⟩) (.reference ⟨"y", ⟨23, 24⟩⟩ ⟨23, 24⟩) ⟨2, 24⟩
  have hparse : parse "(let a = x in a)+y" = .ok e := by cbv
  have hparse' : parse "((let a = x in (a))) + y" = .ok e' := by cbv
  have hfinite : ∀ value s, .number value s ∈ e.nodes → value.isInf = false := by
    intro value s h
    simp [e, Expr.nodes] at h
  have hfinite' : ∀ value s, .number value s ∈ e'.nodes → value.isInf = false := by
    intro value s h
    simp [e', Expr.nodes] at h
  obtain ⟨hbare, -, hsame⟩ := text_identifies hparse hparse' hfinite hfinite' rfl
  obtain ⟨evaluator, h⟩ : ∃ evaluator, e.compile = .ok evaluator := ⟨_, rfl⟩
  obtain ⟨evaluator', h'⟩ : ∃ evaluator, e'.compile = .ok evaluator := ⟨_, rfl⟩
  exact ⟨e, e', hparse, hparse', rfl, hbare, evaluator, evaluator', h, h', (hsame _ _ h h').1⟩

end Heightfield
