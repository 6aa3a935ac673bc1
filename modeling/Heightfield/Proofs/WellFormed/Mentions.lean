import Heightfield.Proofs.Expr.Alike
import Heightfield.Proofs.Expr.Idents
import Heightfield.Proofs.WellFormed.Verdict

/-! Where an expression uses names, each with the names bound around it. The first of them that is
bound nowhere is what a compilation reports, if it reports one that is bound nowhere. -/

namespace Heightfield

/-- A name where it is used, and the names bound around it. -/
structure Mention where
  name : Ident
  around : Names

namespace Mention

/-- Some binding, coordinate or builtin has that name. -/
def Resolves (m : Mention) : Prop := m.around.sense? m.name.name ≠ none

def fault? (m : Mention) : Option CompileError :=
  match m.around.sense? m.name.name with
  | some _ => none
  | none => some (m.around.unresolved m.name)

theorem resolves_of_fault? {m : Mention} (h : m.fault? = none) : m.Resolves := by
  intro hnone
  rw [fault?, hnone] at h
  cases h

end Mention

/-- Everything that a name in that place could refer to: the bound names from the outermost on, the
coordinates, the builtins. -/
def Names.visible (names : Names) : List String :=
  (names.map (·.1)).reverse ++ Param.all.map (·.name) ++ Builtin.names

namespace Expr

mutual

/-- All uses of names, from left to right. -/
def mentions : Expr → Names → List Mention
  | number _ _, _ => []
  | reference n _, names => [⟨n, names⟩]
  | call n args _, names => ⟨n, names⟩ :: mentionsAll args names
  | unary _ _ operand _, names => operand.mentions names
  | binary _ left right _, names => left.mentions names ++ right.mentions names
  | binding n bound body _, names => bound.mentions names ++ body.mentions (names.bind n)
  | function n params body context _, names =>
    body.mentions (names.enter n params) ++ context.mentions (names.define n params)
  | conditional condition positive negative _, names =>
    condition.mentions names ++ positive.mentions names ++ negative.mentions names

def mentionsAll : List Expr → Names → List Mention
  | [], _ => []
  | e :: es, names => e.mentions names ++ mentionsAll es names

end

mutual

/-- Each name of an expression either binds or is used. -/
theorem count_idents (i : Ident) : ∀ (e : Expr) (names : Names),
    e.idents.count i = e.binders.count i + ((e.mentions names).map (·.name)).count i
  | number _ _, _ => rfl
  | reference _ _, _ => (Nat.zero_add _).symm
  | call n args _, names => by
    have hargs := count_identsAll i args names
    simp only [idents, binders, mentions, List.map_cons, List.count_cons]
    omega
  | unary _ _ operand _, names => count_idents i operand names
  | binary _ left right _, names => by
    have hl := count_idents i left names
    have hr := count_idents i right names
    simp only [idents, binders, mentions, List.map_append, List.count_append]
    omega
  | binding n bound body _, names => by
    have hbound := count_idents i bound names
    have hbody := count_idents i body (names.bind n)
    simp only [idents, binders, mentions, List.map_append, List.count_append, List.count_cons]
    omega
  | function n params body context _, names => by
    have hbody := count_idents i body (names.enter n params)
    have hcontext := count_idents i context (names.define n params)
    simp only [idents, binders, mentions, List.map_append, List.count_append, List.count_cons]
    omega
  | conditional condition positive negative _, names => by
    have hc := count_idents i condition names
    have hp := count_idents i positive names
    have hn := count_idents i negative names
    simp only [idents, binders, mentions, List.map_append, List.count_append]
    omega

theorem count_identsAll (i : Ident) : ∀ (es : List Expr) (names : Names),
    (identsAll es).count i =
      (bindersAll es).count i + ((mentionsAll es names).map (·.name)).count i
  | [], _ => rfl
  | e :: es, names => by
    have he := count_idents i e names
    have hes := count_identsAll i es names
    simp only [identsAll, bindersAll, mentionsAll, List.map_append, List.count_append]
    omega

end

mutual

/-- The names around a place are those around the whole, and names that the expression binds. -/
theorem mem_around {x : String} : ∀ (e : Expr) (names : Names), ∀ m ∈ e.mentions names,
    x ∈ m.around.map (·.1) → x ∈ names.map (·.1) ∨ x ∈ e.binders.map (·.name)
  | number _ _, _ => nofun
  | reference _ _, _ => by
    intro m hm hx
    obtain rfl := List.mem_singleton.1 hm
    exact .inl hx
  | call _ args _, names => by
    intro m hm hx
    rcases List.mem_cons.1 hm with rfl | hm
    · exact .inl hx
    · exact mem_aroundAll args names m hm hx
  | unary _ _ operand _, names => mem_around operand names
  | binary _ left right _, names => by
    intro m hm hx
    rw [binders, List.map_append, List.mem_append]
    rcases List.mem_append.1 hm with hm | hm
    · exact (mem_around left names m hm hx).imp_right .inl
    · exact (mem_around right names m hm hx).imp_right .inr
  | binding n bound body _, names => by
    intro m hm hx
    rw [binders, List.map_cons, List.map_append, List.mem_cons, List.mem_append]
    rcases List.mem_append.1 hm with hm | hm
    · exact (mem_around bound names m hm hx).imp_right fun h => .inr (.inl h)
    · rcases mem_around body (names.bind n) m hm hx with h | h
      · rw [Names.bind, List.map_cons, List.mem_cons] at h
        exact h.symm.imp_right .inl
      · exact .inr (.inr (.inr h))
  | function n params body context _, names => by
    intro m hm hx
    rw [binders, List.map_cons, List.map_append, List.map_append, List.mem_cons, List.mem_append,
      List.mem_append]
    rcases List.mem_append.1 hm with hm | hm
    · rcases mem_around body (names.enter n params) m hm hx with h | h
      · rw [Names.enter, Names.define, List.map_append, List.map_reverse, List.map_map,
          List.map_cons, List.mem_append, List.mem_reverse, List.mem_cons] at h
        obtain h | h | h := h
        · exact .inr (.inr (.inl h))
        · exact .inr (.inl h)
        · exact .inl h
      · exact .inr (.inr (.inr (.inl h)))
    · rcases mem_around context (names.define n params) m hm hx with h | h
      · rw [Names.define, List.map_cons, List.mem_cons] at h
        exact h.symm.imp_right .inl
      · exact .inr (.inr (.inr (.inr h)))
  | conditional condition positive negative _, names => by
    intro m hm hx
    rw [binders, List.map_append, List.map_append, List.mem_append, List.mem_append]
    rcases List.mem_append.1 hm with hm | hm
    · rcases List.mem_append.1 hm with hm | hm
      · exact (mem_around condition names m hm hx).imp_right .inl
      · exact (mem_around positive names m hm hx).imp_right fun h => .inr (.inl h)
    · exact (mem_around negative names m hm hx).imp_right fun h => .inr (.inr h)

theorem mem_aroundAll {x : String} : ∀ (es : List Expr) (names : Names),
    ∀ m ∈ mentionsAll es names,
      x ∈ m.around.map (·.1) → x ∈ names.map (·.1) ∨ x ∈ (bindersAll es).map (·.name)
  | [], _ => nofun
  | e :: es, names => by
    intro m hm hx
    rw [bindersAll, List.map_append, List.mem_append]
    rcases List.mem_append.1 hm with hm | hm
    · exact (mem_around e names m hm hx).imp_right .inl
    · exact (mem_aroundAll es names m hm hx).imp_right .inr

end

end Expr

section Faults

def CompileError.isUnresolved : CompileError → Bool
  | .unresolvedReference .. => true
  | _ => false

open CompileError

theorem Names.filter_referenceFaults (names : Names) (n : Ident) :
    (names.referenceFaults n).filter isUnresolved = (Mention.fault? ⟨n, names⟩).toList := by
  unfold referenceFaults Mention.fault?
  rcases names.sense? n.name with _ | _ | arity <;> rfl

theorem Names.filter_calleeFaults (names : Names) (n : Ident) (found : Nat) (sp : Span) :
    (names.calleeFaults n found sp).filter isUnresolved = (Mention.fault? ⟨n, names⟩).toList := by
  unfold calleeFaults Mention.fault?
  rcases names.sense? n.name with _ | _ | arity
  · rfl
  · rfl
  · by_cases h : found = arity <;> simp [h, isUnresolved]

theorem filter_operatorFaults (op : Op) (fixity : Fixity) (sp : Span) :
    (operatorFaults op fixity sp).filter isUnresolved = [] := by
  unfold operatorFaults
  split <;> rfl

theorem filter_parameterFaults (ps : List Ident) (earlier : List String) :
    (parameterFaults ps earlier).filter isUnresolved = [] := by
  induction ps generalizing earlier with
  | nil => rfl
  | cons p ps ih =>
    rw [parameterFaults, List.filter_append, ih, List.append_nil]
    split <;> rfl

namespace Expr

mutual

/-- The names among the faults are the uses of names that are bound nowhere. -/
theorem filter_faults : ∀ (e : Expr) (names : Names),
    (e.faults names).filter isUnresolved = (e.mentions names).filterMap Mention.fault?
  | number _ _, _ => rfl
  | reference n _, names => by
    rw [faults, mentions, Names.filter_referenceFaults, List.filterMap_cons]
    cases Mention.fault? ⟨n, names⟩ <;> rfl
  | call n args _, names => by
    rw [faults, mentions, List.filter_append, Names.filter_calleeFaults, filter_faultsAll args,
      List.filterMap_cons]
    cases Mention.fault? ⟨n, names⟩ <;> rfl
  | unary _ _ operand _, names => by
    rw [faults, mentions, List.filter_append, filter_operatorFaults, filter_faults operand,
      List.nil_append]
  | binary _ left right _, names => by
    rw [faults, mentions, List.filter_append, List.filterMap_append, filter_faults left,
      filter_faults right]
  | binding n bound body _, names => by
    rw [faults, mentions, List.filter_append, List.filterMap_append, filter_faults bound,
      filter_faults body]
  | function n params body context _, names => by
    rw [faults, mentions, List.filter_append, List.filter_append, List.filterMap_append,
      filter_parameterFaults, filter_faults body, filter_faults context, List.nil_append]
  | conditional condition positive negative _, names => by
    rw [faults, mentions, List.filter_append, List.filter_append, List.filterMap_append,
      List.filterMap_append, filter_faults condition, filter_faults positive,
      filter_faults negative]

theorem filter_faultsAll : ∀ (es : List Expr) (names : Names),
    (faultsAll es names).filter isUnresolved = (mentionsAll es names).filterMap Mention.fault?
  | [], _ => rfl
  | e :: es, names => by
    rw [faultsAll, mentionsAll, List.filter_append, List.filterMap_append, filter_faults e,
      filter_faultsAll es]

end

/-- The name that is reported as bound nowhere is the first in the expression that is. -/
theorem mentions_of_compile {e : Expr} {name : String} {span : Span} {similar : Option String}
    (h : e.compile = .error (.unresolvedReference name span similar)) :
    ∃ before around after, e.mentions [] = before ++ ⟨⟨name, span⟩, around⟩ :: after ∧
      (∀ m ∈ before, m.Resolves) ∧ around.sense? name = none ∧
        similar = Suggestion.similar? name around.visible := by
  obtain ⟨others, hfaults⟩ := List.head?_eq_some_iff.1 (head?_faults_of_compile h)
  have hfilter := filter_faults e []
  rw [hfaults, List.filter_cons_of_pos rfl] at hfilter
  obtain ⟨before, m, after, hmentions, hbefore, hm, -⟩ := List.filterMap_eq_cons_iff.1 hfilter.symm
  unfold Mention.fault? at hm
  split at hm
  · cases hm
  · next hnone =>
    cases hm
    refine ⟨before, m.around, after, hmentions, fun m hm => ?_, hnone, rfl⟩
    exact Mention.resolves_of_fault? (hbefore m hm)

end Expr

theorem not_mem_of_lookup {β : Type} {entries : List (String × β)} {name : String}
    (h : entries.lookup name = none) : name ∉ entries.map (·.1) := by
  intro hmem
  obtain ⟨entry, hentry, rfl⟩ := List.mem_map.1 hmem
  simpa using List.lookup_eq_none_iff.1 h entry hentry

/-- Everything that a name could refer to has a meaning there. -/
theorem Names.sense?_of_visible {names : Names} {name : String} (h : name ∈ names.visible) :
    names.sense? name ≠ none := by
  intro hnone
  rw [sense?, Option.or_eq_none_iff, Option.or_eq_none_iff, Option.map_eq_none_iff,
    Option.map_eq_none_iff] at hnone
  obtain ⟨hnames, hparam, hbuiltin⟩ := hnone
  rw [visible, List.mem_append, List.mem_append, List.mem_reverse] at h
  obtain (h | h) | h := h
  · exact not_mem_of_lookup hnames h
  · obtain ⟨p, hp, rfl⟩ := List.mem_map.1 h
    simpa using List.find?_eq_none.1 hparam p hp
  · exact not_mem_of_lookup hbuiltin h

end Faults

section Alike

variable {R : Ident → Ident → Prop} {names : Names} {n n' : Ident} {ps ps' : List Ident}

/-- What corresponds has the same names around it. -/
def Mention.Alike (R : Ident → Ident → Prop) (m m' : Mention) : Prop :=
  R m.name m'.name ∧ m.around = m'.around

theorem Names.bind_congr (hn : n.name = n'.name) : names.bind n = names.bind n' := by
  rw [bind, bind, hn]

theorem Names.define_congr (hn : n.name = n'.name) (hps : List.Forall₂ R ps ps') :
    names.define n ps = names.define n' ps' := by
  rw [define, define, hn, hps.length_eq]

theorem Names.enter_congr (hn : n.name = n'.name) (hps : List.Forall₂ R ps ps')
    (h : ∀ p ∈ ps, ∀ p', R p p' → p.name = p'.name) :
    names.enter n ps = names.enter n' ps' := by
  have hvalues : (ps.map fun p => (p.name, Sense.value)) = ps'.map fun p => (p.name, .value) := by
    clear hn
    induction hps with
    | nil => rfl
    | cons hp _ ih =>
      obtain ⟨hhead, htail⟩ := List.forall_mem_cons.1 h
      rw [List.map_cons, List.map_cons, hhead _ hp, ih htail]
  rw [enter, enter, define_congr hn hps, hvalues]

mutual

/-- Where the names that bind are the same, names are used in the same places. -/
theorem Alike.mentions : ∀ {e e' : Expr}, Alike R e e' → ∀ names : Names,
    (∀ n ∈ e.binders, ∀ n', R n n' → n.name = n'.name) →
      List.Forall₂ (Mention.Alike R) (e.mentions names) (e'.mentions names)
  | _, _, .number, _, _ => .nil
  | _, _, .reference name, _, _ => .cons ⟨name, rfl⟩ .nil
  | _, _, .call name parts, names, h => .cons ⟨name, rfl⟩ (parts.mentionsAll names h)
  | _, _, .unary part, names, h => part.mentions names h
  | _, _, .binary first second, names, h => by
    obtain ⟨hl, hr⟩ := List.forall_mem_append.1 h
    exact List.rel_append (first.mentions names hl) (second.mentions names hr)
  | _, _, .binding name first second, names, h => by
    obtain ⟨hn, h⟩ := List.forall_mem_cons.1 h
    obtain ⟨hbound, hbody⟩ := List.forall_mem_append.1 h
    rw [Expr.mentions, Expr.mentions, ← Names.bind_congr (hn _ name)]
    exact List.rel_append (first.mentions names hbound) (second.mentions _ hbody)
  | _, _, .function name params first second, names, h => by
    obtain ⟨hn, h⟩ := List.forall_mem_cons.1 h
    obtain ⟨hparams, h⟩ := List.forall_mem_append.1 h
    obtain ⟨hbody, hcontext⟩ := List.forall_mem_append.1 h
    rw [Expr.mentions, Expr.mentions, ← Names.enter_congr (hn _ name) params hparams,
      ← Names.define_congr (hn _ name) params]
    exact List.rel_append (first.mentions _ hbody) (second.mentions _ hcontext)
  | _, _, .conditional first second third, names, h => by
    obtain ⟨hc, h⟩ := List.forall_mem_append.1 h
    obtain ⟨hp, hn⟩ := List.forall_mem_append.1 h
    exact List.rel_append (List.rel_append (first.mentions names hc) (second.mentions names hp))
      (third.mentions names hn)

theorem AlikeAll.mentionsAll : ∀ {es es' : List Expr}, AlikeAll R es es' → ∀ names : Names,
    (∀ n ∈ Expr.bindersAll es, ∀ n', R n n' → n.name = n'.name) →
      List.Forall₂ (Mention.Alike R) (Expr.mentionsAll es names) (Expr.mentionsAll es' names)
  | _, _, .nil, _, _ => .nil
  | _, _, .cons first rest, names, h => by
    obtain ⟨he, hes⟩ := List.forall_mem_append.1 h
    exact List.rel_append (first.mentions names he) (rest.mentionsAll names hes)

end

end Alike

end Heightfield
