import Heightfield.Proofs.WellFormed

/-! An expression is well-formed exactly if it has no fault. -/

namespace Heightfield

theorem Names.referenceFaults_eq_nil {names : Names} {n : Ident} :
    names.referenceFaults n = [] ↔ names.sense? n.name = some .value := by
  unfold referenceFaults
  rcases names.sense? n.name with _ | _ | arity <;> simp

theorem Names.calleeFaults_eq_nil {names : Names} {n : Ident} {found : Nat} {sp : Span} :
    names.calleeFaults n found sp = [] ↔ names.sense? n.name = some (.function found) := by
  unfold calleeFaults
  rcases names.sense? n.name with _ | _ | arity
  · simp
  · simp
  · by_cases h : found = arity
    · simp [h]
    · simp [h, Ne.symm h]

theorem operatorFaults_eq_nil {op : Op} {fixity : Fixity} {sp : Span} :
    operatorFaults op fixity sp = [] ↔ fixity = .prefixed ∧ (op = .add ∨ op = .sub) := by
  unfold operatorFaults
  by_cases h : fixity = .prefixed ∧ (op = .add ∨ op = .sub)
  · rw [if_pos h]
    exact ⟨fun _ => h, fun _ => rfl⟩
  · rw [if_neg h]
    exact ⟨nofun, fun hop => absurd hop h⟩

theorem parameterFaults_eq_nil {ps : List Ident} {earlier : List String} :
    parameterFaults ps earlier = [] ↔
      (ps.map (·.name)).Nodup ∧ ∀ p ∈ ps, p.name ∉ earlier := by
  induction ps generalizing earlier with
  | nil => simp [parameterFaults]
  | cons p ps ih =>
    unfold parameterFaults
    rw [List.append_eq_nil_iff, ih]
    simp only [List.map_cons, List.nodup_cons, List.mem_map, List.mem_cons]
    constructor
    · rintro ⟨hp, hnodup, hrest⟩
      have hp' : p.name ∉ earlier := by
        intro h
        simp [h] at hp
      refine ⟨⟨?_, hnodup⟩, ?_⟩
      · rintro ⟨q, hq, hname⟩
        exact hrest q hq (.inl hname)
      · rintro q (rfl | hq) h
        · exact hp' h
        · exact hrest q hq (.inr h)
    · rintro ⟨⟨hp, hnodup⟩, hrest⟩
      refine ⟨if_neg (hrest p (.inl rfl)), hnodup, ?_⟩
      rintro q hq (hname | h)
      · exact hp ⟨q, hq, hname⟩
      · exact hrest q (.inr hq) h

namespace Expr

mutual

theorem faults_eq_nil : ∀ (e : Expr) (names : Names), e.faults names = [] ↔ WellFormed names e
  | number _ _, _ => ⟨fun _ => .number, fun _ => rfl⟩
  | reference _ _, _ => by
    unfold faults
    rw [Names.referenceFaults_eq_nil]
    constructor
    · exact .reference
    · intro h
      cases h with
      | reference resolved => exact resolved
  | call _ args _, names => by
    unfold faults
    rw [List.append_eq_nil_iff, Names.calleeFaults_eq_nil, faultsAll_eq_nil args names]
    constructor
    · rintro ⟨hresolved, hparts⟩
      exact .call hresolved hparts
    · intro h
      cases h with
      | call resolved parts => exact ⟨resolved, parts⟩
  | unary _ _ operand _, names => by
    unfold faults
    rw [List.append_eq_nil_iff, operatorFaults_eq_nil, faults_eq_nil operand names]
    constructor
    · rintro ⟨⟨rfl, hsign⟩, hpart⟩
      exact .unary hsign hpart
    · intro h
      cases h with
      | unary sign part => exact ⟨⟨rfl, sign⟩, part⟩
  | binary _ left right _, names => by
    unfold faults
    rw [List.append_eq_nil_iff, faults_eq_nil left names, faults_eq_nil right names]
    constructor
    · rintro ⟨hl, hr⟩
      exact .binary hl hr
    · intro h
      cases h with
      | binary first second => exact ⟨first, second⟩
  | binding n bound body _, names => by
    unfold faults
    rw [List.append_eq_nil_iff, faults_eq_nil bound names, faults_eq_nil body (names.bind n)]
    constructor
    · rintro ⟨hbound, hbody⟩
      exact .binding hbound hbody
    · intro h
      cases h with
      | binding first second => exact ⟨first, second⟩
  | function n params body context _, names => by
    unfold faults
    rw [List.append_eq_nil_iff, List.append_eq_nil_iff, parameterFaults_eq_nil,
      faults_eq_nil body (names.enter n params), faults_eq_nil context (names.define n params)]
    constructor
    · rintro ⟨⟨⟨hdistinct, -⟩, hbody⟩, hcontext⟩
      exact .function hdistinct hbody hcontext
    · intro h
      cases h with
      | function distinct first second =>
        exact ⟨⟨⟨distinct, fun _ _ => List.not_mem_nil⟩, first⟩, second⟩
  | conditional condition positive negative _, names => by
    unfold faults
    rw [List.append_eq_nil_iff, List.append_eq_nil_iff, faults_eq_nil condition names,
      faults_eq_nil positive names, faults_eq_nil negative names]
    constructor
    · rintro ⟨⟨hc, hp⟩, hn⟩
      exact .conditional hc hp hn
    · intro h
      cases h with
      | conditional first second third => exact ⟨⟨first, second⟩, third⟩

theorem faultsAll_eq_nil : ∀ (es : List Expr) (names : Names),
    faultsAll es names = [] ↔ ∀ e ∈ es, WellFormed names e
  | [], _ => ⟨fun _ _ h => absurd h List.not_mem_nil, fun _ => rfl⟩
  | e :: es, names => by
    unfold faultsAll
    rw [List.append_eq_nil_iff, faults_eq_nil e names, faultsAll_eq_nil es names,
      List.forall_mem_cons]

end

end Expr

end Heightfield
