import Heightfield.Proofs.Alpha
import Heightfield.Proofs.WellFormed.Context
import Mathlib.Data.List.Nodup

/-! One binder under a new name gives an expression that differs in nothing but this name. What
carries the inductions is that the new name stands nowhere in the expression: so no binder on the
way can catch it. -/

namespace Heightfield

namespace Pairing

variable {ρ : Pairing} {m : String}

theorem same_cons_self {n : String} (h : m ≠ n → ρ.Same m m) : Same ((n, n) :: ρ) m m := by
  by_cases hm : m = n
  · exact .inl ⟨hm, hm⟩
  · exact .inr ⟨hm, hm, h hm⟩

theorem enter_cons (ρ : Pairing) (p p' : Ident) (ps ps' : List Ident) :
    ρ.enter (p :: ps) (p' :: ps') = enter ((p.name, p'.name) :: ρ) ps ps' := by
  simp [enter]

theorem enter_append (ρ : Pairing) (ps ps' qs qs' : List Ident) (h : ps.length = ps'.length) :
    ρ.enter (ps ++ qs) (ps' ++ qs') = (ρ.enter ps ps').enter qs qs' := by
  simp [enter, List.zip_append h]

theorem same_enter_self {ps : List Ident} (h : m ∉ ps.map (·.name) → ρ.Same m m) :
    (ρ.enter ps ps).Same m m := by
  induction ps generalizing ρ with
  | nil => exact h List.not_mem_nil
  | cons p ps ih =>
    rw [enter_cons]
    refine ih fun hps => same_cons_self fun hp => h ?_
    simpa using ⟨hp, by simpa using hps⟩

/-- Every name is paired with itself. -/
def Diagonal (ρ : Pairing) : Prop := ∀ m, ρ.Same m m

theorem Diagonal.cons (h : ρ.Diagonal) (n : String) : Diagonal ((n, n) :: ρ) := fun m =>
  same_cons_self fun _ => h m

theorem Diagonal.enter (h : ρ.Diagonal) (ps : List Ident) : (ρ.enter ps ps).Diagonal := fun m =>
  same_enter_self fun _ => h m

end Pairing

open Pairing

mutual

/-- An expression is like itself wherever its free names mean the same. -/
theorem Alpha.refl : ∀ (e : Expr) {ρ : Pairing}, (∀ m ∈ e.freeNames, ρ.Same m m) → Alpha ρ e e
  | .number _ _, _, _ => .number
  | .reference _ _, _, h => .reference (h _ List.mem_cons_self)
  | .call _ args _, _, h =>
    .call (h _ List.mem_cons_self) (AlphaAll.refl args fun m hm => h m (List.mem_cons_of_mem _ hm))
  | .unary _ _ operand _, _, h => .unary (Alpha.refl operand h)
  | .binary _ left right _, _, h =>
    .binary (Alpha.refl left fun m hm => h m (List.mem_append_left _ hm))
      (Alpha.refl right fun m hm => h m (List.mem_append_right _ hm))
  | .binding _ bound body _, _, h =>
    .binding (Alpha.refl bound fun m hm => h m (Expr.mem_freeNames_binding.2 (.inl hm)))
      (Alpha.refl body fun m hm => same_cons_self fun hn =>
        h m (Expr.mem_freeNames_binding.2 (.inr ⟨hm, hn⟩)))
  | .function _ params body context _, _, h =>
    .function rfl Iff.rfl
      (Alpha.refl body fun m hm => same_enter_self fun hps => same_cons_self fun hn =>
        h m (Expr.mem_freeNames_function.2 ⟨.inl ⟨hm, hps⟩, hn⟩))
      (Alpha.refl context fun m hm => same_cons_self fun hn =>
        h m (Expr.mem_freeNames_function.2 ⟨.inr hm, hn⟩))
  | .conditional condition positive negative _, _, h =>
    .conditional
      (Alpha.refl condition fun m hm => h m (by simp [Expr.freeNames, hm]))
      (Alpha.refl positive fun m hm => h m (by simp [Expr.freeNames, hm]))
      (Alpha.refl negative fun m hm => h m (by simp [Expr.freeNames, hm]))

theorem AlphaAll.refl : ∀ (es : List Expr) {ρ : Pairing},
    (∀ m ∈ Expr.freeNamesAll es, ρ.Same m m) → AlphaAll ρ es es
  | [], _, _ => .nil
  | e :: es, _, h =>
    .cons (Alpha.refl e fun m hm => h m (List.mem_append_left _ hm))
      (AlphaAll.refl es fun m hm => h m (List.mem_append_right _ hm))

end

/-- What `Expr.rename n z` makes of a name. -/
def renamed (n z m : String) : String := if m = n then z else m

theorem name_renamed (n z : String) (m : Ident) :
    (if m.name = n then m.named z else m).name = renamed n z m.name :=
  apply_ite Ident.name _ _ _

section

variable {n z : String}

/-- A binder that neither is `n` nor could catch `z`. -/
theorem same_cons_renamed {ρ : Pairing} {m b : String} (hb : b ≠ n) (hz : b ≠ z)
    (h : m ≠ b → ρ.Same m (renamed n z m)) : Same ((b, b) :: ρ) m (renamed n z m) := by
  by_cases hm : m = b
  · subst hm
    exact .inl ⟨rfl, if_neg hb⟩
  · refine .inr ⟨hm, ?_, h hm⟩
    unfold renamed
    split
    · exact Ne.symm hz
    · exact hm

theorem same_enter_renamed {ρ : Pairing} {m : String} {ps : List Ident}
    (hn : n ∉ ps.map (·.name)) (hz : z ∉ ps.map (·.name))
    (h : m ∉ ps.map (·.name) → ρ.Same m (renamed n z m)) :
    (ρ.enter ps ps).Same m (renamed n z m) := by
  induction ps generalizing ρ with
  | nil => exact h List.not_mem_nil
  | cons p ps ih =>
    simp only [List.map_cons, List.mem_cons, not_or] at hn hz
    rw [enter_cons]
    refine ih hn.2 hz.2 fun hps => same_cons_renamed (Ne.symm hn.1) (Ne.symm hz.1) fun hp => h ?_
    simpa using ⟨hp, by simpa using hps⟩

theorem renamed_of_ne {m : String} (h : m ≠ n) : renamed n z m = m := if_neg h

/-- At the binder whose name becomes `z`. -/
theorem same_renamed {ρ : Pairing} {m : String} (hρ : ρ.Diagonal) (hz : m ≠ z) :
    Same ((n, z) :: ρ) m (renamed n z m) := by
  by_cases hm : m = n
  · exact .inl ⟨hm, if_pos hm⟩
  · rw [renamed_of_ne hm]
    exact .inr ⟨hm, hz, hρ m⟩

/-- Under the binder `b` the expression is renamed, unless `b` hides the name. -/
theorem Alpha.under {ρ : Pairing} {b : String} {e : Expr} (hz : z ≠ b)
    (h : ∀ m ∈ e.freeNames, m ≠ b → ρ.Same m (renamed n z m))
    (hrename : (∀ m ∈ e.freeNames, Same ((b, b) :: ρ) m (renamed n z m)) →
      Alpha ((b, b) :: ρ) e (e.rename n z)) :
    Alpha ((b, b) :: ρ) e (if b = n then e else e.rename n z) := by
  split
  -- Hidden by `b`: what is free in `e` and not `b` is not `n` either.
  · next hb =>
    refine Alpha.refl e fun m hm => same_cons_self fun hmb => ?_
    have hsame := h m hm hmb
    rwa [renamed_of_ne (hb ▸ hmb)] at hsame
  · next hb =>
    exact hrename fun m hm => same_cons_renamed hb (Ne.symm hz) (h m hm)

/-- The same for the body of a function, which its parameters and its own name stand around. -/
theorem Alpha.underParams {ρ : Pairing} {b : String} {params : List Ident} {e : Expr}
    (hz : z ≠ b) (hparams : z ∉ params.map (·.name))
    (h : ∀ m ∈ e.freeNames, m ∉ params.map (·.name) → m ≠ b → ρ.Same m (renamed n z m))
    (hrename : (∀ m ∈ e.freeNames,
      (enter ((b, b) :: ρ) params params).Same m (renamed n z m)) →
        Alpha (enter ((b, b) :: ρ) params params) e (e.rename n z)) :
    Alpha (enter ((b, b) :: ρ) params params) e
      (if b = n ∨ n ∈ params.map (·.name) then e else e.rename n z) := by
  split
  · next hidden =>
    refine Alpha.refl e fun m hm => same_enter_self fun hps => same_cons_self fun hmb => ?_
    have hmn : m ≠ n := by
      rintro rfl
      exact hidden.elim (fun hb => hmb hb.symm) hps
    have hsame := h m hm hps hmb
    rwa [renamed_of_ne hmn] at hsame
  · next hidden =>
    rw [not_or] at hidden
    exact hrename fun m hm => same_enter_renamed hidden.2 hparams fun hps =>
      same_cons_renamed hidden.1 (Ne.symm hz) (h m hm hps)

mutual

/-- Where `n` at one place means what `z` means at the other, an expression without `z` is like the
renamed one. -/
theorem Alpha.rename : ∀ (e : Expr) {ρ : Pairing}, z ∉ e.names →
    (∀ m ∈ e.freeNames, ρ.Same m (renamed n z m)) → Alpha ρ e (e.rename n z)
  | .number _ _, _, _, _ => .number
  | .reference m _, _, _, h => .reference (by
      rw [name_renamed]
      exact h _ List.mem_cons_self)
  | .call m args _, _, hz, h => .call (by
      rw [name_renamed]
      exact h _ List.mem_cons_self)
      (AlphaAll.rename args (fun hm => hz (List.mem_cons_of_mem _ hm))
        fun m hm => h m (List.mem_cons_of_mem _ hm))
  | .unary _ _ operand _, _, hz, h => .unary (Alpha.rename operand hz h)
  | .binary _ left right _, _, hz, h =>
    .binary
      (Alpha.rename left (fun hm => hz (List.mem_append_left _ hm))
        fun m hm => h m (List.mem_append_left _ hm))
      (Alpha.rename right (fun hm => hz (List.mem_append_right _ hm))
        fun m hm => h m (List.mem_append_right _ hm))
  | .binding b bound body _, _, hz, h => by
    simp only [Expr.names, List.mem_cons, List.mem_append, not_or] at hz
    exact .binding
      (Alpha.rename bound hz.2.1 fun m hm => h m (Expr.mem_freeNames_binding.2 (.inl hm)))
      (Alpha.under hz.1 (fun m hm hb => h m (Expr.mem_freeNames_binding.2 (.inr ⟨hm, hb⟩)))
        (Alpha.rename body hz.2.2))
  | .function b params body context _, _, hz, h => by
    simp only [Expr.names, List.mem_cons, List.mem_append, not_or] at hz
    obtain ⟨hb, ⟨hparams, hbody⟩, hcontext⟩ := hz
    exact .function rfl Iff.rfl
      (Alpha.underParams hb hparams
        (fun m hm hps hmb => h m (Expr.mem_freeNames_function.2 ⟨.inl ⟨hm, hps⟩, hmb⟩))
        (Alpha.rename body hbody))
      (Alpha.under hb (fun m hm hmb => h m (Expr.mem_freeNames_function.2 ⟨.inr hm, hmb⟩))
        (Alpha.rename context hcontext))
  | .conditional condition positive negative _, _, hz, h => by
    simp only [Expr.names, List.mem_append, not_or] at hz
    exact .conditional
      (Alpha.rename condition hz.1.1 fun m hm => h m (by simp [Expr.freeNames, hm]))
      (Alpha.rename positive hz.1.2 fun m hm => h m (by simp [Expr.freeNames, hm]))
      (Alpha.rename negative hz.2 fun m hm => h m (by simp [Expr.freeNames, hm]))

theorem AlphaAll.rename : ∀ (es : List Expr) {ρ : Pairing}, z ∉ Expr.namesAll es →
    (∀ m ∈ Expr.freeNamesAll es, ρ.Same m (renamed n z m)) →
      AlphaAll ρ es (Expr.renameAll n z es)
  | [], _, _, _ => .nil
  | e :: es, _, hz, h =>
    .cons
      (Alpha.rename e (fun hm => hz (List.mem_append_left _ hm))
        fun m hm => h m (List.mem_append_left _ hm))
      (AlphaAll.rename es (fun hm => hz (List.mem_append_right _ hm))
        fun m hm => h m (List.mem_append_right _ hm))

end

end

/-- A binder that takes a name which stands nowhere in its node. -/
theorem Expr.Rebinds.alpha {z : String} {node node' : Expr} {ρ : Pairing} {names : Names}
    (h : node.Rebinds z node') (hz : z ∉ node.names) (hwf : WellFormed names node)
    (hρ : ρ.Diagonal) : Alpha ρ node node' := by
  cases h with
  | @value n bound body sp =>
    simp only [Expr.names, List.mem_cons, List.mem_append, not_or] at hz
    exact .binding (Alpha.refl bound fun m _ => hρ m) (Alpha.rename body hz.2.2 fun m hm =>
      same_renamed hρ (Expr.ne_of_mem_freeNames hz.2.2 hm))
  | @function n params body context sp =>
    simp only [Expr.names, List.mem_cons, List.mem_append, not_or] at hz
    obtain ⟨-, ⟨hparams, hbody⟩, hcontext⟩ := hz
    refine .function rfl Iff.rfl ?_ (Alpha.rename context hcontext fun m hm =>
      same_renamed hρ (Expr.ne_of_mem_freeNames hcontext hm))
    split
    · next hidden =>
      refine Alpha.refl body fun m hm => same_enter_self fun hps =>
        .inr ⟨?_, Expr.ne_of_mem_freeNames hbody hm, hρ m⟩
      rintro rfl
      exact hps hidden
    · next hidden =>
      exact Alpha.rename body hbody fun m hm => same_enter_renamed hidden hparams fun _ =>
        same_renamed hρ (Expr.ne_of_mem_freeNames hbody hm)
  | @parameter n earlier p later body context sp =>
    simp only [Expr.names, List.mem_cons, List.mem_append, List.map_append, List.map_cons,
      not_or] at hz
    obtain ⟨-, ⟨⟨hearlier, -, hlater⟩, hbody⟩, -⟩ := hz
    cases hwf with
    | function distinct first second =>
      rw [List.map_append, List.map_cons, List.nodup_middle, List.nodup_cons] at distinct
      have hp : p.name ∉ later.map (·.name) := fun h =>
        distinct.1 (List.mem_append_right _ h)
      refine .function (by simp) ?_ (Alpha.rename body hbody fun m hm => ?_)
        (Alpha.refl context fun m _ => hρ.cons n.name m)
      · rw [List.map_append, List.map_cons, List.map_append, List.map_cons, List.nodup_middle,
          List.nodup_middle, List.nodup_cons, List.nodup_cons]
        have hz : z ∉ earlier.map (·.name) ++ later.map (·.name) := by
          rw [List.mem_append]
          exact not_or.2 ⟨hearlier, hlater⟩
        exact and_congr_left fun _ => iff_of_true hz distinct.1
      -- No later parameter hides `p`, as all have names of their own.
      · rw [enter_append _ _ _ _ _ rfl, enter_cons]
        exact same_enter_renamed hp hlater fun _ =>
          same_renamed ((hρ.cons n.name).enter earlier) (Expr.ne_of_mem_freeNames hbody hm)

/-- What is unlike at one place only. -/
theorem AlphaAll.middle {ρ : Pairing} {e e' : Expr} (hρ : ρ.Diagonal) (h : Alpha ρ e e')
    (earlier later : List Expr) : AlphaAll ρ (earlier ++ e :: later) (earlier ++ e' :: later) := by
  induction earlier with
  | nil => exact .cons h (AlphaAll.refl later fun m _ => hρ m)
  | cons a earlier ih => exact .cons (Alpha.refl a fun m _ => hρ m) ih

section

variable {ρ : Pairing} {e e' : Expr}

theorem Alpha.plug (layer : Layer) (hρ : ρ.Diagonal)
    (h : ∀ {ρ : Pairing}, ρ.Diagonal → Alpha ρ e e') :
    Alpha ρ (layer.plug e) (layer.plug e') := by
  have hrefl : ∀ {ρ : Pairing} (a : Expr), ρ.Diagonal → Alpha ρ a a := fun a hρ =>
    Alpha.refl a fun m _ => hρ m
  cases layer with
  | argument n earlier later s => exact .call (hρ n.name) (AlphaAll.middle hρ (h hρ) earlier later)
  | operand op fixity s => exact .unary (h hρ)
  | left op right s => exact .binary (h hρ) (hrefl right hρ)
  | right op left s => exact .binary (hrefl left hρ) (h hρ)
  | bound n body s => exact .binding (h hρ) (hrefl body (hρ.cons n.name))
  | body n bound s => exact .binding (hrefl bound hρ) (h (hρ.cons n.name))
  | inner n params context s =>
    exact .function rfl Iff.rfl (h ((hρ.cons n.name).enter params))
      (hrefl context (hρ.cons n.name))
  | context n params body s =>
    exact .function rfl Iff.rfl (hrefl body ((hρ.cons n.name).enter params))
      (h (hρ.cons n.name))
  | condition positive negative s =>
    exact .conditional (h hρ) (hrefl positive hρ) (hrefl negative hρ)
  | positive condition negative s =>
    exact .conditional (hrefl condition hρ) (h hρ) (hrefl negative hρ)
  | negative condition positive s =>
    exact .conditional (hrefl condition hρ) (hrefl positive hρ) (h hρ)

theorem Alpha.fill (C : Context) (hρ : ρ.Diagonal)
    (h : ∀ {ρ : Pairing}, ρ.Diagonal → Alpha ρ e e') : Alpha ρ (C.fill e) (C.fill e') := by
  induction C generalizing ρ with
  | nil => exact h hρ
  | cons layer C ih => exact Alpha.plug layer hρ ih

end

end Heightfield
