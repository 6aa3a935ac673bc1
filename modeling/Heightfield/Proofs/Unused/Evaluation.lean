import Heightfield.Proofs.Meaning
import Heightfield.Proofs.Unused

/-! An expression has the same values without binders that nothing uses. The two evaluations run in
environments that agree on the names still in use: whatever else is bound, no lookup finds it. -/

namespace Heightfield

/-- The environments agree on the names in `N`, and so do those of the functions that such names
stand for, on the names that are free in them. -/
inductive Agree : (String → Prop) → Env → Env → Prop
  | empty {N} : Agree N .empty .empty
  | value {N n v env env'} (outer : Agree (fun m => N m ∧ m ≠ n) env env') :
      Agree N (.value n v env) (.value n v env')
  | function {N n params body body' env env'} (akin : Akin body body')
      (outer : Agree (fun m => (N m ∨ m ∈ body.freeNames ∧ m ∉ params.map (·.name)) ∧ m ≠ n)
        env env') :
      Agree N (.function n params body env) (.function n params body' env')
  | lessValue {N n v env env'} (unused : ¬ N n) (outer : Agree N env env') :
      Agree N (.value n v env) env'
  | lessFunction {N n params body env env'} (unused : ¬ N n) (outer : Agree N env env') :
      Agree N (.function n params body env) env'
  | more {N n params body env env'} (unused : ¬ N n) (outer : Agree N env env') :
      Agree N env (.function n params body env')

/-- What one name stands for in environments that agree on it. -/
inductive Denotes : Option Denotation → Option Denotation → Prop
  | none : Denotes none none
  | value {v} : Denotes (some (.value v)) (some (.value v))
  | closure {params body body' env env'} (akin : Akin body body')
      (agree : Agree (fun m => m ∈ body.freeNames ∧ m ∉ params.map (·.name)) env env') :
      Denotes (some (.closure params body env)) (some (.closure params body' env'))

namespace Agree

variable {N N' : String → Prop} {env env' : Env} {m : String}

theorem mono (h : Agree N env env') (hN : ∀ m, N' m → N m) : Agree N' env env' := by
  induction h generalizing N' with
  | empty => exact .empty
  | value _ ih => exact .value (ih fun m hm => ⟨hN m hm.1, hm.2⟩)
  | function akin _ ih => exact .function akin (ih fun m hm => ⟨hm.1.imp_left (hN m), hm.2⟩)
  | lessValue unused _ ih => exact .lessValue (fun h => unused (hN _ h)) (ih hN)
  | lessFunction unused _ ih => exact .lessFunction (fun h => unused (hN _ h)) (ih hN)
  | more unused _ ih => exact .more (fun h => unused (hN _ h)) (ih hN)

theorem ne_of_unused {n : String} (unused : ¬ N n) (hm : N m) : n ≠ m := by
  rintro rfl
  exact unused hm

theorem lookup (h : Agree N env env') (hm : N m) : Denotes (env.lookup m) (env'.lookup m) := by
  induction h with
  | empty => exact .none
  | @value N n v env env' outer ih =>
    unfold Env.lookup
    by_cases hn : n = m
    · rw [if_pos hn, if_pos hn]
      exact .value
    · rw [if_neg hn, if_neg hn]
      exact ih ⟨hm, Ne.symm hn⟩
  | @function N n params body body' env env' akin outer ih =>
    unfold Env.lookup
    by_cases hn : n = m
    -- a closure has its own function around it, which agrees as the two bodies are akin
    · rw [if_pos hn, if_pos hn]
      exact .closure akin (.function akin (outer.mono fun m hm => ⟨.inr (hm.1.elim id id), hm.2⟩))
    · rw [if_neg hn, if_neg hn]
      exact ih ⟨.inl hm, Ne.symm hn⟩
  | lessValue unused _ ih =>
    rw [Env.lookup, if_neg (ne_of_unused unused hm)]
    exact ih hm
  | lessFunction unused _ ih =>
    rw [Env.lookup, if_neg (ne_of_unused unused hm)]
    exact ih hm
  | more unused _ ih =>
    rw [Env.lookup, if_neg (ne_of_unused unused hm)]
    exact ih hm

theorem lookup_none (h : Agree N env env') (hm : N m) (hl : env.lookup m = none) :
    env'.lookup m = none := by
  have hd := h.lookup hm
  rw [hl] at hd
  generalize env'.lookup m = d at hd
  cases hd
  rfl

theorem lookup_value {v : Float} (h : Agree N env env') (hm : N m)
    (hl : env.lookup m = some (.value v)) : env'.lookup m = some (.value v) := by
  have hd := h.lookup hm
  rw [hl] at hd
  generalize env'.lookup m = d at hd
  cases hd
  rfl

theorem lookup_closure {params : List Ident} {body : Expr} {definition : Env}
    (h : Agree N env env') (hm : N m)
    (hl : env.lookup m = some (.closure params body definition)) :
    ∃ body' definition', env'.lookup m = some (.closure params body' definition') ∧
      Akin body body' ∧ Agree (fun m => m ∈ body.freeNames ∧ m ∉ params.map (·.name))
        definition definition' := by
  have hd := h.lookup hm
  rw [hl] at hd
  generalize env'.lookup m = d at hd
  cases hd with
  | closure akin agree => exact ⟨_, _, rfl, akin, agree⟩

/-- Each parameter takes its name out of what has to agree around. -/
theorem bindAll {params : List Ident} {vs : List Float}
    (h : Agree (fun m => N m ∧ m ∉ params.map (·.name)) env env')
    (hlen : vs.length = params.length) :
    Agree N (env.bindAll params vs) (env'.bindAll params vs) := by
  induction params generalizing env env' vs with
  | nil => exact h.mono fun m hm => ⟨hm, List.not_mem_nil⟩
  | cons p ps ih =>
    obtain ⟨v, vs, rfl⟩ := List.exists_cons_of_length_eq_add_one hlen
    refine ih (.value (h.mono fun m hm => ⟨hm.1.1, ?_⟩)) (Nat.succ.inj hlen)
    exact List.not_mem_cons_of_ne_of_not_mem hm.2 hm.1.2

end Agree

variable {point : Point}

/-- A function that only the second expression binds is left aside; it suffices to look at what is
under it. -/
theorem Akin.eval_of_node {env : Env} {e : Expr} {v : Float} :
    ∀ {e' : Expr} {env' : Env}, Akin e e' → Agree (· ∈ e.freeNames) env env' →
      (∀ {e' env'}, AkinNode e e' → Agree (· ∈ e.freeNames) env env' → Eval point env' e' v) →
        Eval point env' e' v
  | _, _, .node h, hagree, hnode => hnode h hagree
  | _, _, .more unused rest, hagree, hnode =>
    .function (rest.eval_of_node (hagree.more unused) hnode)

mutual

theorem Eval.akin : ∀ {env env' : Env} {e e' : Expr} {v : Float}, Eval point env e v → Akin e e' →
    Agree (· ∈ e.freeNames) env env' → Eval point env' e' v
  | _, _, _, _, _, .number, hakin, hagree => hakin.eval_of_node hagree fun hnode _ => by
    cases hnode
    exact .number
  | _, _, _, _, _, .bound found, hakin, hagree => hakin.eval_of_node hagree fun hnode hagree => by
    cases hnode
    exact .bound (hagree.lookup_value List.mem_cons_self found)
  | _, _, _, _, _, .coordinate p free name, hakin, hagree =>
    hakin.eval_of_node hagree fun hnode hagree => by
      cases hnode
      exact .coordinate p (hagree.lookup_none List.mem_cons_self free) name
  | _, _, _, _, _, .pi free name, hakin, hagree =>
    hakin.eval_of_node hagree fun hnode hagree => by
      cases hnode
      exact .pi (hagree.lookup_none List.mem_cons_self free) name
  | _, _, _, _, _, .e free name, hakin, hagree =>
    hakin.eval_of_node hagree fun hnode hagree => by
      cases hnode
      exact .e (hagree.lookup_none List.mem_cons_self free) name
  | _, _, _, _, _, .call found arity parts result, hakin, hagree =>
    hakin.eval_of_node hagree fun hnode hagree => by
      cases hnode with
      | call parts' =>
        obtain ⟨body', definition', hl, hbody, hdefinition⟩ :=
          hagree.lookup_closure List.mem_cons_self found
        have hargs := parts.akin parts' (hagree.mono fun m => List.mem_cons_of_mem _)
        have hlen := parts.length_eq.trans arity
        exact .call hl (parts'.length_eq.trans arity) hargs
          (result.akin hbody (hdefinition.bindAll hlen))
  | _, _, _, _, _, .math f free name part, hakin, hagree =>
    hakin.eval_of_node hagree fun hnode hagree => by
      cases hnode with
      | call parts' =>
        cases parts' with
        | cons first rest =>
          cases rest
          exact .math f (hagree.lookup_none List.mem_cons_self free) name
            (part.akin first (hagree.mono fun m hm =>
              List.mem_cons_of_mem _ (List.mem_append_left _ hm)))
  | _, _, _, _, _, .plus part, hakin, hagree => hakin.eval_of_node hagree fun hnode hagree => by
    cases hnode with
    | unary part' => exact .plus (part.akin part' hagree)
  | _, _, _, _, _, .minus part, hakin, hagree => hakin.eval_of_node hagree fun hnode hagree => by
    cases hnode with
    | unary part' => exact .minus (part.akin part' hagree)
  | _, _, _, _, _, @Eval.strict _ _ _ _ _ _ l r f both first second, hakin, hagree =>
    hakin.eval_of_node hagree fun hnode hagree => by
      cases hnode with
      | binary first' second' =>
        exact .strict both (first.akin first' (hagree.mono fun m => List.mem_append_left _))
          (second.akin second' (hagree.mono fun m => List.mem_append_right _))
  | _, _, _, _, _, .andDecided first test, hakin, hagree =>
    hakin.eval_of_node hagree fun hnode hagree => by
      cases hnode with
      | binary first' _ =>
        exact .andDecided (first.akin first' (hagree.mono fun m => List.mem_append_left _)) test
  | _, _, _, _, _, .andOpen first test second, hakin, hagree =>
    hakin.eval_of_node hagree fun hnode hagree => by
      cases hnode with
      | binary first' second' =>
        exact .andOpen (first.akin first' (hagree.mono fun m => List.mem_append_left _)) test
          (second.akin second' (hagree.mono fun m => List.mem_append_right _))
  | _, _, _, _, _, .orDecided first test, hakin, hagree =>
    hakin.eval_of_node hagree fun hnode hagree => by
      cases hnode with
      | binary first' _ =>
        exact .orDecided (first.akin first' (hagree.mono fun m => List.mem_append_left _)) test
  | _, _, _, _, _, .orOpen first test second, hakin, hagree =>
    hakin.eval_of_node hagree fun hnode hagree => by
      cases hnode with
      | binary first' second' =>
        exact .orOpen (first.akin first' (hagree.mono fun m => List.mem_append_left _)) test
          (second.akin second' (hagree.mono fun m => List.mem_append_right _))
  | _, _, _, _, _, .binding first second, hakin, hagree =>
    hakin.eval_of_node hagree fun hnode hagree => by
      cases hnode with
      | binding first' second' =>
        exact .binding
          (first.akin first' (hagree.mono fun m hm => Expr.mem_freeNames_binding.2 (.inl hm)))
          (second.akin second' (.value (hagree.mono fun m hm =>
            Expr.mem_freeNames_binding.2 (.inr hm))))
      -- the value stays in the one environment, and is never looked up
      | lessValue unused rest =>
        exact second.akin rest (.lessValue unused (hagree.mono fun m hm =>
          Expr.mem_freeNames_binding.2 (.inr ⟨hm, fun hn => unused (hn ▸ hm)⟩)))
  | _, _, _, _, _, .function result, hakin, hagree =>
    hakin.eval_of_node hagree fun hnode hagree => by
      cases hnode with
      | function first' second' =>
        exact .function (result.akin second' (.function first' (hagree.mono fun m hm =>
          Expr.mem_freeNames_function.2 ⟨hm.1.symm, hm.2⟩)))
      | lessFunction unused rest =>
        exact result.akin rest (.lessFunction unused (hagree.mono fun m hm =>
          Expr.mem_freeNames_function.2 ⟨.inr hm, fun hn => unused (hn ▸ hm)⟩))
  | _, _, _, _, _, .positive first test second, hakin, hagree =>
    hakin.eval_of_node hagree fun hnode hagree => by
      cases hnode with
      | conditional first' second' third' =>
        exact .positive (first.akin first' (hagree.mono fun m hm => by simp [Expr.freeNames, hm]))
          test (second.akin second' (hagree.mono fun m hm => by simp [Expr.freeNames, hm]))
  | _, _, _, _, _, .negative first test second, hakin, hagree =>
    hakin.eval_of_node hagree fun hnode hagree => by
      cases hnode with
      | conditional first' second' third' =>
        exact .negative (first.akin first' (hagree.mono fun m hm => by simp [Expr.freeNames, hm]))
          test (second.akin third' (hagree.mono fun m hm => by simp [Expr.freeNames, hm]))

theorem EvalAll.akin : ∀ {env env' : Env} {es es' : List Expr} {vs : List Float},
    EvalAll point env es vs → AkinAll es es' → Agree (· ∈ Expr.freeNamesAll es) env env' →
      EvalAll point env' es' vs
  | _, _, _, _, _, .nil, hakin, _ => by
    cases hakin
    exact .nil
  | _, _, _, _, _, .cons first rest, hakin, hagree => by
    cases hakin with
    | cons first' rest' =>
      exact .cons (first.akin first' (hagree.mono fun m => List.mem_append_left _))
        (rest.akin rest' (hagree.mono fun m => List.mem_append_right _))

end

end Heightfield
