import Heightfield.Parser.Grammar

/-! What parsers do to the tokens before them, without regard to spans and to refusals. -/

namespace Heightfield

theorem exists_of_isOk {ε α : Type} {answer : Except ε α} (h : answer.isOk = true) :
    ∃ a, answer = .ok a := by
  cases answer with
  | error e => cases h
  | ok a => exact ⟨a, rfl⟩

def Cursor.tokens (c : Cursor) : List Token := c.rest.map (·.token)

namespace Parser

variable {α β γ : Type} {p p' : Parser α} {q : α → Parser β} {ts ts' ts'' : List Token}
  {P : α → Prop} {Q : β → Prop}

/-- Where `ts` is before it, `p` reads on to `ts'` and answers with a `P`. -/
def Takes (p : Parser α) (ts ts' : List Token) (P : α → Prop) : Prop :=
  ∀ c f, c.tokens = ts → ∃ a c' f', p c f = (some (a, c'), f') ∧ c'.tokens = ts' ∧ P a

def Refuses (p : Parser α) (ts : List Token) : Prop :=
  ∀ c f, c.tokens = ts → ∃ f', p c f = (none, f')

theorem bind_eq (p : Parser α) (q : α → Parser β) (c : Cursor) (f : Furthest) :
    (p >>= q) c f = match p c f with
      | (some (a, c'), f') => q a c' f'
      | (none, f') => (none, f') := rfl

theorem orElse_eq (p p' : Parser α) (c : Cursor) (f : Furthest) :
    (p <|> p') c f = match p c f with
      | (some r, f') => (some r, f')
      | (none, f') => p' c f' := rfl

theorem Takes.pure {a : α} (h : P a) : Takes (pure a) ts ts P :=
  fun c f hc => ⟨a, c, f, rfl, hc, h⟩

theorem Takes.imp {P' : α → Prop} (hp : Takes p ts ts' P) (h : ∀ a, P a → P' a) :
    Takes p ts ts' P' := by
  intro c f hc
  obtain ⟨a, c', f', hr, hc', ha⟩ := hp c f hc
  exact ⟨a, c', f', hr, hc', h a ha⟩

theorem Takes.bind (hp : Takes p ts ts' P) (hq : ∀ a, P a → Takes (q a) ts' ts'' Q) :
    Takes (p >>= q) ts ts'' Q := by
  intro c f hc
  obtain ⟨a, c', f', hr, hc', ha⟩ := hp c f hc
  rw [bind_eq, hr]
  exact hq a ha c' f' hc'

theorem Takes.bind_refuses (hp : Takes p ts ts' P) (hq : ∀ a, P a → Refuses (q a) ts') :
    Refuses (p >>= q) ts := by
  intro c f hc
  obtain ⟨a, c', f', hr, hc', ha⟩ := hp c f hc
  rw [bind_eq, hr]
  exact hq a ha c' f' hc'

theorem Refuses.bind (hp : Refuses p ts) : Refuses (p >>= q) ts := by
  intro c f hc
  obtain ⟨f', hr⟩ := hp c f hc
  rw [bind_eq, hr]
  exact ⟨f', rfl⟩

theorem Takes.orElse (hp : Takes p ts ts' P) : Takes (p <|> p') ts ts' P := by
  intro c f hc
  obtain ⟨a, c', f', hr, hrest⟩ := hp c f hc
  rw [orElse_eq, hr]
  exact ⟨a, c', f', rfl, hrest⟩

theorem Refuses.orElse_takes (hp : Refuses p ts) (hp' : Takes p' ts ts' P) :
    Takes (p <|> p') ts ts' P := by
  intro c f hc
  obtain ⟨f', hr⟩ := hp c f hc
  rw [orElse_eq, hr]
  exact hp' c f' hc

theorem Refuses.orElse (hp : Refuses p ts) (hp' : Refuses p' ts) : Refuses (p <|> p') ts := by
  intro c f hc
  obtain ⟨f', hr⟩ := hp c f hc
  rw [orElse_eq, hr]
  exact hp' c f' hc

section Tokens

variable {t : Token} {a : α} {accept : Token → Option α} {expected expectedAtEnd : List Expected}

theorem token_takes (h : accept t = some a) :
    Takes (token accept expected expectedAtEnd) (t :: ts) ts (·.1 = a) := by
  rintro ⟨rest, stop⟩ f hc
  obtain ⟨l, ls, rfl, rfl, rfl⟩ := List.map_eq_cons_iff.1 hc
  refine ⟨(a, l.span), ⟨ls, l.span.stop⟩, f, ?_, rfl, rfl⟩
  simp only [token, h]

theorem token_refuses (h : ∀ t, ts.head? = some t → accept t = none) :
    Refuses (token accept expected expectedAtEnd) ts := by
  rintro ⟨rest, stop⟩ f rfl
  cases rest with
  | nil => exact ⟨_, rfl⟩
  | cons l ls =>
    refine ⟨f.refuse (ls.length + 1) expected, ?_⟩
    simp only [token, h l.token rfl, List.length_cons]

theorem fixed_takes (t : Token) (ts : List Token) : Takes (fixed t) (t :: ts) ts fun _ => True :=
  (token_takes (if_pos rfl)).bind fun _ _ => .pure trivial

theorem fixed_refuses (h : ts.head? ≠ some t) : Refuses (fixed t) ts := by
  refine Refuses.bind (token_refuses fun t' ht' => if_neg ?_)
  rintro rfl
  exact h ht'

theorem ident_takes (name : String) (ts : List Token) :
    Takes ident (.ident name :: ts) ts (·.name = name) := by
  refine Takes.bind (token_takes (a := name) rfl) fun a ha => ?_
  exact .pure ha

theorem ident_refuses (h : ∀ name, ts.head? ≠ some (.ident name)) : Refuses ident ts := by
  refine Refuses.bind (token_refuses fun t ht => ?_)
  cases t with
  | ident name => exact absurd ht (h name)
  | _ => rfl

theorem number_takes (digits : String) (ts : List Token) :
    Takes number (.number digits :: ts) ts
      fun e => ∃ sp, e = .number (Decimal.ofChars digits.toList).toFloat sp := by
  refine Takes.bind (token_takes (a := digits) rfl) fun a ha => ?_
  subst ha
  exact .pure ⟨a.2, rfl⟩

theorem number_refuses (h : ∀ digits, ts.head? ≠ some (.number digits)) : Refuses number ts := by
  refine Refuses.bind (token_refuses fun t ht => ?_)
  cases t with
  | number digits => exact absurd ht (h digits)
  | _ => rfl

theorem lastStop_takes (ts : List Token) : Takes lastStop ts ts fun _ => True :=
  fun c f hc => ⟨c.stop, c, f, rfl, hc, trivial⟩

theorem endOfInput_takes : Takes endOfInput [] [] fun _ => True := by
  rintro ⟨rest, stop⟩ f hc
  obtain rfl := List.map_eq_nil_iff.1 hc
  exact ⟨(), _, f, rfl, rfl, trivial⟩

end Tokens

section Runs

variable {separator : Parser γ} {first : α} {as : List α}

theorem many_eq (p : Parser α) (c : Cursor) (f : Furthest) :
    many p c f = match p c f with
      | (none, f') => (some ([], c), f')
      | (some (a, c'), f') =>
        if c'.rest.length < c.rest.length then
          match many p c' f' with
          | (some (as, c''), f'') => (some (a :: as, c''), f'')
          | (none, f'') => (none, f'')
        else (some ([a], c'), f') :=
  many.eq_def p c f

theorem many_stops (hp : Refuses p ts) : Takes (many p) ts ts (· = []) := by
  intro c f hc
  obtain ⟨f', hr⟩ := hp c f hc
  rw [many_eq, hr]
  exact ⟨[], c, f', rfl, hc, rfl⟩

theorem many_steps {R : List α → Prop} (hp : Takes p ts ts' P) (hlt : ts'.length < ts.length)
    (hmany : Takes (many p) ts' ts'' R) :
    Takes (many p) ts ts'' fun as => ∃ a as', as = a :: as' ∧ P a ∧ R as' := by
  intro c f hc
  obtain ⟨a, c', f', hr, hc', ha⟩ := hp c f hc
  obtain ⟨as, c'', f'', hr', hc'', has⟩ := hmany c' f' hc'
  have hshorter : c'.rest.length < c.rest.length := by
    subst hc hc'
    simpa [Cursor.tokens] using hlt
  rw [many_eq, hr]
  simp only [if_pos hshorter, hr']
  exact ⟨a :: as, c'', f'', rfl, hc'', a, as, rfl, ha, has⟩

end Runs

end Parser

end Heightfield
