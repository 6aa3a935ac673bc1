import Heightfield.Proofs.Grammar.Sound

/-! Two texts that begin alike are read alike, until a token is looked at where they part. If it is
taken, the run on that text has read beyond the parting. If it is refused, and the other text has a
token there that is taken, the record tells so. -/

namespace Heightfield

namespace Furthest

/-- The record `f'` is further on than `f`, or at its place and says no less. -/
def Grows (f f' : Furthest) : Prop :=
  f'.left < f.left ∨ f'.left = f.left ∧ f.expected ⊆ f'.expected

variable {f f' f'' : Furthest}

theorem Grows.refl (f : Furthest) : Grows f f := .inr ⟨rfl, List.Subset.refl _⟩

theorem Grows.trans (h : Grows f f') (h' : Grows f' f'') : Grows f f'' := by
  rcases h with h | ⟨hleft, h⟩
  · rcases h' with h' | ⟨hleft', -⟩
    · exact .inl (Nat.lt_trans h' h)
    · exact .inl (hleft' ▸ h)
  · rcases h' with h' | ⟨hleft', h'⟩
    · exact .inl (hleft ▸ h')
    · exact .inr ⟨hleft'.trans hleft, List.Subset.trans h h'⟩

theorem grows_refuse (f : Furthest) (left : Nat) (expected : List Expected) :
    Grows f (f.refuse left expected) := by
  unfold refuse
  split
  · next h => exact .inl h
  · split
    · next h => exact .inr ⟨h, List.subset_append_left _ _⟩
    · exact .refl f

/-- What a refusal at the record's own place was ready for is part of the record. -/
theorem mem_refuse {left : Nat} {expected : List Expected} {x : Expected} (hx : x ∈ expected)
    (h : (f.refuse left expected).left = left) : x ∈ (f.refuse left expected).expected := by
  unfold refuse at h ⊢
  split
  · exact hx
  · next hle =>
    rw [if_neg hle] at h
    split
    · exact List.mem_append_right _ hx
    · next hne =>
      rw [if_neg hne] at h
      exact absurd h.symm hne

end Furthest

/-- What stands first in `ts`. -/
def Expected.first : List Token → Expected
  | [] => .endOfInput
  | t :: _ => .ofToken t

/-- The record is further on than the beginning of `a`; or it stands there, and tells that what `b`
begins with would have been read. It tells no operators at the end of the input. -/
def Furthest.Tells (f : Furthest) (a b : List Token) : Prop :=
  f.left < a.length ∨ f.left = a.length ∧
    (Expected.first b ∈ f.expected ∨ a = [] ∧ ∃ op rest, b = .operator op :: rest)

theorem Furthest.Tells.of_grows {f f' : Furthest} {a b : List Token} (h : f.Tells a b)
    (hg : f.Grows f') : f'.Tells a b := by
  rcases hg with hlt | ⟨hleft, hsub⟩
  · refine .inl ?_
    rcases h with h | ⟨h, -⟩ <;> omega
  · rcases h with h | ⟨h, hb⟩
    · exact .inl (hleft ▸ h)
    · exact .inr ⟨hleft.trans h, hb.imp_left fun hx => hsub hx⟩

theorem Cursor.length_rest {c : Cursor} {v a : List Token} (hc : c.tokens = v ++ a) :
    c.rest.length = v.length + a.length := by
  rw [← List.length_append, ← hc, Cursor.tokens, List.length_map]

/-- Before the same text, the shorter way there is left where fewer tokens are. -/
theorem Cursor.length_lt_iff {c d : Cursor} {v w a : List Token} (hc : c.tokens = v ++ a)
    (hd : d.tokens = w ++ a) : d.rest.length < c.rest.length ↔ w.length < v.length := by
  rw [Cursor.length_rest hc, Cursor.length_rest hd]
  omega

/-- A refusal where the texts part tells of it, if it was ready for what the other begins with. -/
theorem Furthest.tells_refuse (f : Furthest) {a b : List Token} {expected : List Expected}
    (h : Expected.first b ∈ expected ∨ a = [] ∧ ∃ op rest, b = .operator op :: rest) :
    (f.refuse a.length expected).Tells a b := by
  have hle : (f.refuse a.length expected).left ≤ a.length := by
    rw [refuse_left]
    exact Nat.min_le_left _ _
  rcases Nat.lt_or_eq_of_le hle with hlt | heq
  · exact .inl hlt
  · exact .inr ⟨heq, h.imp_left fun hx => mem_refuse hx heq⟩

namespace Parser

variable {α β γ δ : Type} {p p₁ : Parser α} {p' p₁' : Parser β} {q : α → Parser γ}
  {q' : β → Parser δ} {a b : List Token} {m m' : Nat}

/-- An outcome before `a` and one before `b`, of two runs that began alike. The first of them has
told of their parting or has read on beyond it; or both were refused, or both have come equally
far. -/
inductive Abreast (a b : List Token) :
    Option (α × Cursor) × Furthest → Option (β × Cursor) × Furthest → Prop
  | told {answer f r} (h : f.Tells a b) : Abreast a b (answer, f) r
  | past {x d f r} (h : d.rest.length < a.length) : Abreast a b (some (x, d), f) r
  | refused {f f'} : Abreast a b (none, f) (none, f')
  | reached {x y d d' f f'} (v : List Token) (hd : d.tokens = v ++ a) (hd' : d'.tokens = v ++ b) :
    Abreast a b (some (x, d), f) (some (y, d'), f')

/-- What an outcome says of the run that began at `c` and `f`: the record has only grown, and it is
not behind `c` if the run failed. -/
inductive Marked (c : Cursor) (f : Furthest) : Option (α × Cursor) × Furthest → Prop
  | read {x d f'} (grows : f.Grows f') (shrinks : d.rest.length ≤ c.rest.length) :
    Marked c f (some (x, d), f')
  | refused {f'} (grows : f.Grows f') (reaches : f'.left ≤ c.rest.length) : Marked c f (none, f')

def Marks (m : Nat) (p : Parser α) : Prop := ∀ c f, c.rest.length < m → Marked c f (p c f)

/-- Run before `v ++ a` and before `v ++ b`, with fewer than `m` and `m'` tokens, `p` and `p'` come
out abreast. -/
structure Follows (m m' : Nat) (p : Parser α) (p' : Parser β) : Prop where
  marks : Marks m p
  abreast : ∀ {v a b c c'} f f', c.tokens = v ++ a → c'.tokens = v ++ b → c.rest.length < m →
    c'.rest.length < m' → Abreast a b (p c f) (p' c' f')

theorem Marked.grows {c : Cursor} {f : Furthest} {r : Option (α × Cursor) × Furthest}
    (h : Marked c f r) : f.Grows r.2 := by
  cases h with
  | read hg _ => exact hg
  | refused hg _ => exact hg

theorem Marked.trans {c d : Cursor} {f f₁ : Furthest} {r : Option (α × Cursor) × Furthest}
    (hg : f.Grows f₁) (hle : d.rest.length ≤ c.rest.length) (h : Marked d f₁ r) : Marked c f r := by
  cases h with
  | read hg' h => exact .read (hg.trans hg') (Nat.le_trans h hle)
  | refused hg' h => exact .refused (hg.trans hg') (Nat.le_trans h hle)

/-- From beyond the parting every outcome is beyond it. -/
theorem Marked.beyond {c : Cursor} {f : Furthest} {r : Option (α × Cursor) × Furthest}
    (h : Marked c f r) (hc : c.rest.length < a.length) (r' : Option (β × Cursor) × Furthest) :
    Abreast a b r r' := by
  cases h with
  | read _ hle => exact .past (Nat.lt_of_le_of_lt hle hc)
  | refused _ hle => exact .told (.inl (Nat.lt_of_le_of_lt hle hc))

/-- Once the parting is told of, every outcome has it told. -/
theorem Marked.told {c : Cursor} {f : Furthest} {r : Option (α × Cursor) × Furthest}
    (h : Marked c f r) (hf : f.Tells a b) (r' : Option (β × Cursor) × Furthest) :
    Abreast a b r r' :=
  .told (hf.of_grows h.grows)

theorem Follows.of_succ (hp : Follows (m + 1) (m' + 1) p p') : Follows m m' p p' where
  marks c f hc := hp.marks c f (Nat.lt_succ_of_lt hc)
  abreast f f' hv hv' hc hc' :=
    hp.abreast f f' hv hv' (Nat.lt_succ_of_lt hc) (Nat.lt_succ_of_lt hc')

theorem Follows.pure (x : α) (y : β) : Follows m m' (pure x : Parser α) (pure y : Parser β) where
  marks _ _ _ := .read (.refl _) (Nat.le_refl _)
  abreast _ _ hc hc' _ _ := .reached _ hc hc'

theorem lastStop_follows : Follows m m' lastStop lastStop where
  marks _ _ _ := .read (.refl _) (Nat.le_refl _)
  abreast _ _ hc hc' _ _ := .reached _ hc hc'

section Bind

variable {e : Nat}

/-- Where `p` reads at least `e` tokens, that many fewer are before `q`. -/
theorem Marks.bind_of (hp : Marks (m + e) p)
    (heats : ∀ {c f x d f'}, c.rest.length < m + e → p c f = (some (x, d), f') →
      d.rest.length + e ≤ c.rest.length)
    (hq : ∀ x, Marks m (q x)) : Marks (m + e) (p >>= q) := by
  intro c f hc
  rw [bind_eq]
  have h := hp c f hc
  cases hr : p c f with
  | mk answer f₁ =>
    rw [hr] at h
    cases h with
    | refused hg hle => exact .refused hg hle
    | @read x d _ hg hle =>
      have hd := heats hc hr
      exact (hq x d f₁ (by omega)).trans hg hle

theorem Follows.bind_of (hp : Follows (m + e) (m' + e) p p')
    (heats : ∀ {c f x d f'}, c.rest.length < m + e → p c f = (some (x, d), f') →
      d.rest.length + e ≤ c.rest.length)
    (hq : ∀ x y, Follows m m' (q x) (q' y)) [Inhabited β] :
    Follows (m + e) (m' + e) (p >>= q) (p' >>= q') where
  marks := hp.marks.bind_of heats fun x => (hq x default).marks
  abreast {v a b c c'} f f' hv hv' hc hc' := by
    have h := hp.abreast f f' hv hv' hc hc'
    rw [bind_eq, bind_eq]
    cases hr : p c f with
    | mk answer f₁ =>
      cases hr' : p' c' f' with
      | mk answer' f₁' =>
        rw [hr, hr'] at h
        cases h with
        | told h =>
          cases answer with
          | none => exact .told h
          | some s =>
            have hd := heats hc hr
            exact ((hq s.1 default).marks s.2 f₁ (by omega)).told h _
        | @past x d _ _ h =>
          have hd := heats hc hr
          exact ((hq x default).marks d f₁ (by omega)).beyond h _
        | refused => exact .refused
        | @reached x y d d' _ _ w hd hd' =>
          have hlen := heats hc hr
          rw [Cursor.length_rest hd, Cursor.length_rest hv] at hlen
          rw [Cursor.length_rest hv] at hc
          rw [Cursor.length_rest hv'] at hc'
          refine (hq x y).abreast f₁ f₁' hd hd' ?_ ?_
          · rw [Cursor.length_rest hd]
            omega
          · rw [Cursor.length_rest hd']
            omega

end Bind

theorem Follows.bind [Inhabited β] (hp : Follows m m' p p')
    (hq : ∀ x y, Follows m m' (q x) (q' y)) : Follows m m' (p >>= q) (p' >>= q') := by
  refine Follows.bind_of (e := 0) hp (fun {c f x d f'} hc hr => ?_) hq
  have h := hp.marks c f hc
  rw [hr] at h
  cases h with
  | read _ hle => exact hle

/-- Behind a parser that reads a token, there is one token less. -/
theorem Follows.behind [Inhabited β] {R : List Token → Prop} (hp : Follows (m + 1) (m' + 1) p p')
    (hreads : Reads p R) (hR : ∀ ts, R ts → ts ≠ []) (hq : ∀ x y, Follows m m' (q x) (q' y)) :
    Follows (m + 1) (m' + 1) (p >>= q) (p' >>= q') := by
  refine Follows.bind_of hp (fun _ hr => ?_) hq
  obtain ⟨ts, hts, h⟩ := hreads.read hr
  have hpos := List.length_pos_iff.2 (hR ts h)
  rw [Cursor.length_rest hts, Cursor.tokens, List.length_map]
  omega

theorem Marks.orElse (hp : Marks m p) (hp₁ : Marks m p₁) : Marks m (p <|> p₁) := by
  intro c f hc
  rw [orElse_eq]
  have h := hp c f hc
  cases hr : p c f with
  | mk answer f₁ =>
    rw [hr] at h
    cases h with
    | refused hg _ => exact (hp₁ c f₁ hc).trans hg (Nat.le_refl _)
    | read hg hle => exact .read hg hle

theorem Follows.orElse (hp : Follows m m' p p') (hp₁ : Follows m m' p₁ p₁') :
    Follows m m' (p <|> p₁) (p' <|> p₁') where
  marks := hp.marks.orElse hp₁.marks
  abreast {v a b c c'} f f' hv hv' hc hc' := by
    have h := hp.abreast f f' hv hv' hc hc'
    rw [orElse_eq, orElse_eq]
    cases hr : p c f with
    | mk answer f₁ =>
      cases hr' : p' c' f' with
      | mk answer' f₁' =>
        rw [hr, hr'] at h
        cases h with
        | told h =>
          cases answer with
          | none => exact (hp₁.marks c f₁ hc).told h _
          | some s => exact .told h
        | past h => exact .past h
        | refused => exact hp₁.abreast f₁ f₁' hv hv' hc hc'
        | reached w hd hd' => exact .reached w hd hd'

/-- A run may be empty, so it never fails. -/
theorem many_ne_none (p : Parser α) (c : Cursor) (f f' : Furthest) : many p c f ≠ (none, f') := by
  fun_induction Parser.many p c f with
  | case3 c f x d f₁ h hlt f₂ hmany ih =>
    intro heq
    cases heq
    exact ih hmany
  | _ =>
    intro heq
    cases heq

theorem Marks.many (hp : Marks m p) : Marks m (many p) := by
  intro c f hc
  have hm := hp c f hc
  fun_induction Parser.many p c f with
  | case1 c f f' h =>
    rw [h] at hm
    exact .read hm.grows (Nat.le_refl _)
  | case2 c f x d f' h hlt xs d' f'' hmany ih =>
    rw [h] at hm
    have hd := Nat.lt_trans hlt hc
    have hrest := ih hd (hp d f' hd)
    rw [hmany] at hrest
    cases hrest with
    | read hg hle => exact .read (hm.grows.trans hg) (Nat.le_trans hle (Nat.le_of_lt hlt))
  | case3 c f x d f' h hlt f'' hmany ih => exact absurd hmany (many_ne_none p d f' f'')
  | case4 c f x d f' h hlt =>
    rw [h] at hm
    cases hm with
    | read hg hle => exact .read hg hle

/-- Rounds that come equally far read equally much, so both runs end with the same round. -/
theorem Follows.many (hp : Follows m m' p p') : Follows m m' (many p) (many p') where
  marks := hp.marks.many
  abreast {v a b c c'} f f' hv hv' hc hc' := by
    have hround := hp.abreast f f' hv hv' hc hc'
    fun_induction Parser.many p c f generalizing v c' f' with
    | case1 c f f₁ h =>
      rw [h] at hround
      rw [many_eq p' c' f']
      generalize p' c' f' = r' at hround
      cases hround with
      | told ht => exact .told ht
      | refused => exact .reached v hv hv'
    | case2 c f x d f₁ h hlt xs d₂ f₂ hmany ih =>
      rw [h] at hround
      rw [many_eq p' c' f']
      have hd := Nat.lt_trans hlt hc
      have hrest := hp.marks.many d f₁ hd
      rw [hmany] at hrest
      generalize p' c' f' = r' at hround
      cases hround with
      | told ht => exact .told (ht.of_grows hrest.grows)
      | past hpast =>
        cases hrest with
        | read _ hle => exact .past (Nat.lt_of_le_of_lt hle hpast)
      | @reached _ y _ d' _ f₁' w hw hw' =>
        have hlt' : d'.rest.length < c'.rest.length := by
          rw [Cursor.length_lt_iff hv hw] at hlt
          rwa [Cursor.length_lt_iff hv' hw']
        have hd' := Nat.lt_trans hlt' hc'
        have hnext := ih f₁' hw hw' hd hd' (hp.abreast f₁ f₁' hw hw' hd hd')
        simp only [if_pos hlt']
        rw [hmany] at hnext
        cases hr' : Parser.many p' d' f₁' with
        | mk answer f₂' =>
          rw [hr'] at hnext
          cases hnext with
          | told ht => exact .told ht
          | past hpast => exact .past hpast
          | reached w' hw₂ hw₂' => exact .reached w' hw₂ hw₂'
    | case3 c f x d f₁ h hlt f₂ hmany ih => exact absurd hmany (many_ne_none p d f₁ f₂)
    | case4 c f x d f₁ h hlt =>
      rw [h] at hround
      rw [many_eq p' c' f']
      generalize p' c' f' = r' at hround
      cases hround with
      | told ht => exact .told ht
      | past hpast => exact .past hpast
      | @reached _ y _ d' _ f₁' w hw hw' =>
        have hge : ¬ d'.rest.length < c'.rest.length := by
          rw [Cursor.length_lt_iff hv hw] at hlt
          rwa [Cursor.length_lt_iff hv' hw']
        simp only [if_neg hge]
        exact .reached w hw hw'

section Tokens

variable {accept : Token → Option α} {expected expectedAtEnd : List Expected}

theorem token_some {l : Lexeme} {x : α} (h : accept l.token = some x) (rest : List Lexeme)
    (stop : Nat) (f : Furthest) : token accept expected expectedAtEnd ⟨l :: rest, stop⟩ f =
      (some ((x, l.span), ⟨rest, l.span.stop⟩), f) := by
  simp only [token, h]

theorem token_none {l : Lexeme} (h : accept l.token = none) (rest : List Lexeme) (stop : Nat)
    (f : Furthest) : token accept expected expectedAtEnd ⟨l :: rest, stop⟩ f =
      (none, f.refuse (rest.length + 1) expected) := by
  simp only [token, h, List.length_cons]

theorem token_marks : Marks m (token accept expected expectedAtEnd) := by
  rintro ⟨rest, stop⟩ f -
  have hrefused : ∀ xs, Marked ⟨rest, stop⟩ f
      ((none, f.refuse rest.length xs) : Option ((α × Span) × Cursor) × Furthest) := fun xs =>
    .refused (f.grows_refuse _ _) (by rw [Furthest.refuse_left]; exact Nat.min_le_left _ _)
  cases rest with
  | nil => exact hrefused expectedAtEnd
  | cons l ls =>
    cases h : accept l.token with
    | none =>
      rw [token_none h]
      exact hrefused expected
    | some x =>
      rw [token_some h]
      exact .read (.refl f) (Nat.le_succ _)

/-- Whatever token is taken is told of where another is refused; and at the end, if it is no
operator. -/
theorem token_follows (hexpected : ∀ t x, accept t = some x → Expected.ofToken t ∈ expected)
    (hatEnd : ∀ t x, accept t = some x →
      Expected.ofToken t ∈ expectedAtEnd ∨ ∃ op, t = .operator op) :
    Follows m m' (token accept expected expectedAtEnd) (token accept expected expectedAtEnd) where
  marks := token_marks
  abreast := by
    rintro v a b ⟨rest, stop⟩ ⟨rest', stop'⟩ f f' hv hv' - -
    rw [Cursor.tokens] at hv hv'
    cases v with
    | cons t v =>
      obtain ⟨l, ls, rfl, rfl, hls⟩ := List.map_eq_cons_iff.1 hv
      obtain ⟨l', ls', rfl, hl, hls'⟩ := List.map_eq_cons_iff.1 hv'
      cases h : accept l.token with
      | none =>
        rw [token_none h, token_none (hl ▸ h)]
        exact .refused
      | some x =>
        rw [token_some h, token_some (hl ▸ h)]
        exact .reached v hls hls'
    | nil =>
      subst hv hv'
      cases rest with
      | nil =>
        cases rest' with
        | nil => exact .refused
        | cons l' ls' =>
          cases h' : accept l'.token with
          | none =>
            rw [token_none h']
            exact .refused
          | some x =>
            refine .told (f.tells_refuse (a := []) ((hatEnd _ _ h').imp_right ?_))
            rintro ⟨op, hop⟩
            exact ⟨rfl, op, ls'.map (·.token), by rw [← hop]; rfl⟩
      | cons l ls =>
        cases h : accept l.token with
        | some x =>
          rw [token_some h]
          exact .past (by simp)
        | none =>
          rw [token_none h]
          cases rest' with
          | nil => exact .refused
          | cons l' ls' =>
            cases h' : accept l'.token with
            | none =>
              rw [token_none h']
              exact .refused
            | some x =>
              refine .told ?_
              rw [← List.length_cons, ← List.length_map (f := (·.token))]
              exact f.tells_refuse (.inl (hexpected _ _ h'))

theorem fixed_follows (t : Token) (ht : Expected.ofToken t = .fixed t) :
    Follows m m' (fixed t) (fixed t) := by
  refine Follows.bind (token_follows ?_ ?_) fun _ _ => .pure _ _
  all_goals
    intro t' x h
    simp only [Option.ite_none_right_eq_some] at h
    rw [h.1, ht]
  · exact List.mem_singleton_self _
  · exact .inl (List.mem_singleton_self _)

theorem ident_follows : Follows m m' ident ident := by
  refine Follows.bind (token_follows ?_ ?_) fun _ _ => .pure _ _
  all_goals
    intro t x h
    cases t with
    | ident name => simp [Expected.ofToken]
    | _ => cases h

theorem number_follows : Follows m m' number number := by
  refine Follows.bind (token_follows ?_ ?_) fun _ _ => .pure _ _
  all_goals
    intro t x h
    cases t with
    | number digits => simp [Expected.ofToken]
    | _ => cases h

theorem operator_follows {look : Op → Option OperatorDecl} {decls : List OperatorDecl}
    (hdecls : ∀ op d, look op = some d → ∃ d' ∈ decls, d'.op = op) :
    Follows m m' (operator look decls) (operator look decls) := by
  refine token_follows ?_ ?_
  all_goals
    intro t d h
    cases t with
    | operator op => ?_
    | _ => cases h
  · obtain ⟨d', hd', rfl⟩ := hdecls op d h
    exact List.mem_map.2 ⟨d', hd', rfl⟩
  · exact .inr ⟨op, rfl⟩

end Tokens

section Forms

variable [Inhabited β] {table : OperatorTable} {core core' expr expr' : Parser Expr}

theorem separated_follows (hp : Follows m m' p p') :
    Follows m m' (separated p (fixed .comma)) (separated p' (fixed .comma)) :=
  (hp.bind fun _ _ => ((fixed_follows _ rfl).bind fun _ _ => hp).many.bind
    fun _ _ => .pure _ _).orElse (.pure _ _)

theorem parenthesized_follows (hp : Follows m m' p p') :
    Follows (m + 1) (m' + 1) (parenthesized p) (parenthesized p') :=
  (fixed_follows _ rfl).behind (fixed_reads _ rfl) (by simp) fun _ _ =>
    hp.bind fun _ _ => (fixed_follows _ rfl).bind fun _ _ => .pure _ _

theorem operand_follows (hcore : Follows m m' core core') :
    Follows m m' (operand table core) (operand table core') := by
  refine Follows.bind (operator_follows fun op d h => ?_).many fun _ _ =>
    hcore.bind fun _ _ => .pure _ _
  exact ⟨d, List.mem_of_find?_eq_some h, OperatorTable.op_of_prefixed? h⟩

theorem operation_follows (hcore : Follows m m' core core') :
    Follows m m' (operation table core) (operation table core') := by
  refine Follows.bind (operator_follows fun op d h => ?_) fun _ _ =>
    (operand_follows hcore).bind fun _ _ => .pure _ _
  exact ⟨d, List.mem_of_find?_eq_some h, OperatorTable.op_of_infixed? h⟩

theorem chain_follows (hcore : Follows m m' core core') :
    Follows m m' (chain table core) (chain table core') :=
  (operand_follows hcore).bind fun _ _ =>
    (operation_follows hcore).many.bind fun _ _ => .pure _ _

variable (hexpr : Follows m m' expr expr')

include hexpr

theorem binding_follows : Follows (m + 1) (m' + 1) (binding expr) (binding expr') :=
  (fixed_follows _ rfl).behind (fixed_reads _ rfl) (by simp) fun _ _ =>
    ident_follows.bind fun _ _ => (fixed_follows _ rfl).bind fun _ _ => hexpr.bind fun _ _ =>
    (fixed_follows _ rfl).bind fun _ _ => hexpr.bind fun _ _ => lastStop_follows.bind fun _ _ =>
    .pure _ _

theorem function_follows : Follows (m + 1) (m' + 1) (function expr) (function expr') :=
  (fixed_follows _ rfl).behind (fixed_reads _ rfl) (by simp) fun _ _ =>
    ident_follows.bind fun _ _ =>
    (parenthesized_follows (separated_follows ident_follows)).of_succ.bind fun _ _ =>
    (fixed_follows _ rfl).bind fun _ _ => hexpr.bind fun _ _ => (fixed_follows _ rfl).bind
    fun _ _ => hexpr.bind fun _ _ => lastStop_follows.bind fun _ _ => .pure _ _

theorem conditional_follows : Follows (m + 1) (m' + 1) (conditional expr) (conditional expr') :=
  (fixed_follows _ rfl).behind (fixed_reads _ rfl) (by simp) fun _ _ => hexpr.bind fun _ _ =>
    (fixed_follows _ rfl).bind fun _ _ => hexpr.bind fun _ _ => (fixed_follows _ rfl).bind
    fun _ _ => hexpr.bind fun _ _ => lastStop_follows.bind fun _ _ => .pure _ _

theorem referenceOrCall_follows :
    Follows (m + 1) (m' + 1) (referenceOrCall expr) (referenceOrCall expr') :=
  ident_follows.bind fun _ _ => ((parenthesized_follows (separated_follows hexpr)).bind
    fun _ _ => lastStop_follows.bind fun _ _ => .pure _ _).orElse (.pure _ _)

theorem anyCore_follows : Follows (m + 1) (m' + 1) (anyCore expr) (anyCore expr') :=
  ((binding_follows hexpr).orElse ((function_follows hexpr).orElse
    (conditional_follows hexpr))).orElse (number_follows.orElse
    ((referenceOrCall_follows hexpr).orElse (parenthesized_follows hexpr)))

omit hexpr in
/-- Each level of nesting has a token less before it, so none is too deep. -/
theorem expression_follows (table : OperatorTable) : ∀ depth depth', Follows depth depth'
    (expression table anyCore depth) (expression table anyCore depth')
  | 0, _ => ⟨nofun, nofun⟩
  | depth + 1, 0 =>
    ⟨(chain_follows (anyCore_follows (expression_follows table depth 0))).marks, nofun⟩
  | depth + 1, depth' + 1 =>
    chain_follows (anyCore_follows (expression_follows table depth depth'))

end Forms

end Parser

end Heightfield
