import Heightfield.Proofs.Addressing.Placement

/-! Every visit finds its frames. The step is from a site to its parts, which are placed in their
scopes as the site is in its own, and from a call to the body it enters. -/

namespace Heightfield

open Compilation

/-- The site is compiled as it says, in the scope of its place, and the table has all that was added
to it there. -/
structure Site.Placed (s : Site) (root : Expr) (table : Array Code) : Prop where
  made : codeOf s.expr s.before = .ok s.code s.after
  fits : Fits root table s.around s.before.scope.unmarked
  holds : Holds table s.before s.after

variable {root : Expr} {table : Array Code} {position : Position} {s s' : Site}

theorem Site.Placed.ready {around : Around} {n : Ident} {params : List Ident} {body context : Expr}
    {sp : Span} {c c' : Compilation} {code : Code}
    (h : Site.Placed ⟨around, .function n params body context sp, c, code, c'⟩ root table)
    (hs : Compiled root ⟨around, .function n params body context sp, c, code, c'⟩) :
    Definition.Ready ⟨n, params, body, c⟩ root table around := by
  have hmade : codeOf (.function n params body context sp) c = .ok code c' := h.made
  obtain ⟨-, inner, c₁, c₂, hbody, hcontext, rfl⟩ := function_ok hmade
  have hbehind : Holds table c c₂ := h.holds
  obtain ⟨hentry, hinner, -⟩ := hbehind.function (codeOf_extends body hbody).toGrows
    (codeOf_extends context hcontext).toGrows
  exact ⟨⟨_, context, sp, hs, rfl, rfl, rfl⟩, inner, c₁, hbody, hentry, hinner⟩

/-- The parts of a placed site are placed. -/
theorem Site.Placed.part (h : s.Placed root table) (hs : Compiled root s)
    (part : Part position s s') : s'.Placed root table := by
  obtain ⟨made, fits, holds⟩ := h
  cases part with
  | argument earlier target sofar first =>
    obtain ⟨t, c₁, codes, c₂, hcallee, hargs, hcall⟩ := call_ok made
    cases target.symm.trans hcallee
    obtain ⟨front, c₃, back, hfront, hback, -⟩ := codesOf_append.1 hargs
    cases sofar.symm.trans hfront
    obtain ⟨code, c₄, others, hcode, hothers, -⟩ := codesOf_cons_ok hback
    cases first.symm.trans hcode
    have hx := (callee_extends hcallee).trans (codesOf_extends _ hfront)
    have hx' := (codesOf_extends _ hothers).trans (callOf_extends hcall)
    exact ⟨hcode, by rw [hx.scope]; exact fits, (holds.right hx.toGrows).left hx'.toGrows⟩
  | operand first =>
    obtain ⟨-, -, inner, hinner, -⟩ := unary_ok made
    cases first.symm.trans hinner
    exact ⟨hinner, fits, holds⟩
  | left first =>
    obtain ⟨l, c₁, r, hl, hr, -⟩ := binary_ok made
    cases first.symm.trans hl
    exact ⟨hl, fits, holds.left (codeOf_extends _ hr).toGrows⟩
  | right sofar second =>
    obtain ⟨l, c₁, r, hl, hr, -⟩ := binary_ok made
    cases sofar.symm.trans hl
    cases second.symm.trans hr
    have hx := codeOf_extends _ hl
    exact ⟨hr, by rw [hx.scope]; exact fits, holds.right hx.toGrows⟩
  | bound first =>
    obtain ⟨value, c₁, inner, c₂, hbound, hbody, -, rfl⟩ := binding_ok made
    have hbehind : Holds table _ c₂ := holds
    cases first.symm.trans hbound
    exact ⟨hbound, fits, hbehind.left (codeOf_extends _ hbody).of_under⟩
  | body sofar opened second =>
    obtain ⟨value, c₁, inner, c₂, hbound, hbody, -, rfl⟩ := binding_ok made
    have hbehind : Holds table _ c₂ := holds
    cases sofar.symm.trans hbound
    cases (openBinding_apply _ _).symm.trans opened
    cases second.symm.trans hbody
    have hx := codeOf_extends _ hbound
    refine ⟨hbody, ?_, fun i hi => hbehind.right hx.toGrows i hi⟩
    rw [under, Scope.unmarked_pushValue, hx.scope]
    exact fits.value _
  | inner opened first =>
    have ready := Site.Placed.ready ⟨made, fits, holds⟩ hs
    obtain ⟨inner, c₁, hbody, -, hinner⟩ := ready.entry
    cases (openFunction_apply _ _ _).symm.trans opened
    cases first.symm.trans hbody
    exact ⟨hbody, fits.within ready, hinner⟩
  | context opened sofar closed second =>
    have ready := Site.Placed.ready ⟨made, fits, holds⟩ hs
    dsimp only at made
    obtain ⟨-, inner, c₁, c₂, hbody, hcontext, rfl⟩ := function_ok made
    have hbehind : Holds table _ c₂ := holds
    cases (openFunction_apply _ _ _).symm.trans opened
    cases sofar.symm.trans hbody
    cases (closeFunction_ok _ _ _ _).symm.trans closed
    cases second.symm.trans hcontext
    have hx := codeOf_extends _ hbody
    have hx' := codeOf_extends _ hcontext
    refine ⟨hcontext, ?_, (hbehind.function hx.toGrows hx'.toGrows).2.2⟩
    rw [hx.scope_closed]
    exact fits.function _ rfl ready
  | condition first =>
    obtain ⟨test, c₁, yes, c₂, no, ht, hy, hn, -⟩ := conditional_ok made
    cases first.symm.trans ht
    have hx := (codeOf_extends _ hy).trans (codeOf_extends _ hn)
    exact ⟨ht, fits, holds.left hx.toGrows⟩
  | positive sofar second =>
    obtain ⟨test, c₁, yes, c₂, no, ht, hy, hn, -⟩ := conditional_ok made
    cases sofar.symm.trans ht
    cases second.symm.trans hy
    have hx := codeOf_extends _ ht
    refine ⟨hy, ?_, (holds.right hx.toGrows).left (codeOf_extends _ hn).toGrows⟩
    rw [hx.scope]
    exact fits
  | negative sofar sofar' third =>
    obtain ⟨test, c₁, yes, c₂, no, ht, hy, hn, -⟩ := conditional_ok made
    cases sofar.symm.trans ht
    cases sofar'.symm.trans hy
    cases third.symm.trans hn
    have hx := (codeOf_extends _ ht).trans (codeOf_extends _ hy)
    refine ⟨hn, ?_, holds.right hx.toGrows⟩
    rw [hx.scope]
    exact fits

/-- All sites of a compilation are placed. -/
theorem Compiled.placed {code : Code} {c : Compilation} (hroot : codeOf root {} = .ok code c)
    (h : Compiled root s) : s.Placed root c.functions := by
  induction h with
  | root made =>
    cases made.symm.trans hroot
    exact ⟨made, .nil, fun _ _ _ => rfl⟩
  | part whole part ih => exact ih.part whole part

theorem Part.values (h : Part position s s') (hne : position ≠ .inner) :
    s'.around.values = s.around.values + if position = .body then 1 else 0 := by
  cases h with
  | inner => exact absurd rfl hne
  | _ => rfl

section Frames

variable {program : Program} {draws : Draws} {point : Point} {depth n n' : Nat} {code code' : Code}
  {frames frames' : Frames}

/-- Only the body of a binding is run on other frames than its expression, on one more. -/
theorem Runs.length (h : Runs program draws point depth position code frames n code' frames' n') :
    position ≠ .inner ∧ frames'.length = frames.length + if position = .body then 1 else 0 := by
  cases h <;> exact ⟨nofun, rfl⟩

theorem runAll_length {enter : Nat → Frames → Run Float} {codes : List Code} {values : List Float}
    (h : Code.runAll draws point enter codes frames n = .ok values n') :
    values.length = codes.length := by
  induction codes generalizing values n with
  | nil =>
    cases h
    rfl
  | cons code codes ih =>
    rw [Code.runAll, bind_eq_ok] at h
    obtain ⟨v, n₁, -, h⟩ := h
    rw [bind_eq_ok] at h
    obtain ⟨vs, n₂, hvs, h⟩ := h
    cases h
    exact congrArg (· + 1) (ih hvs)

end Frames

/-- A call of a bound function, compiled where the function can be seen. -/
theorem Site.Placed.call {around : Around} {n : Ident} {args : List Expr} {sp : Span}
    {c c' : Compilation} {index hops : Nat} {codes : List Code}
    (h : Site.Placed ⟨around, .call n args sp, c, .call index hops codes, c'⟩ root table) :
    ∃ d outer, around.resolve? n.name = some (.function d, outer) ∧
      d.before.scope.depth ≤ c.scope.depth ∧ Fits root table outer d.before.scope.unmarked ∧
      d.Ready root table outer ∧ index = d.before.functions.size ∧
      hops = c.scope.depth - d.before.scope.depth ∧ codes.length = d.params.length := by
  obtain ⟨target, c₁, codes', c₂, hcallee, hargs, hcall⟩ := call_ok h.made
  obtain ⟨-, ⟨i, depth, hl, rfl⟩ | ⟨-, -, ⟨f, -, rfl, -⟩ | ⟨-, rfl, -⟩⟩⟩ := callee_ok hcallee
  · obtain ⟨⟨rfl, rfl, rfl⟩, -⟩ := by simpa [callOf] using hcall
    have hr := h.fits.resolves n.name
    rw [Scope.lookup_unmarked, hl] at hr
    generalize hb : around.resolve? n.name = b at hr
    generalize harity : args.length = arity at hr
    cases hr with
    | function below fits ready =>
      exact ⟨_, _, rfl, below, fits, ready, rfl, rfl, (codesOf_length hargs).trans harity⟩
  · cases hlast : codes'.getLast? <;> simp [callOf, hlast] at hcall
  · simp only [callOf, bind_eq_ok] at hcall
    obtain ⟨_, _, _, hcall⟩ := hcall
    cases hcall

/-- The body of a function is a part of the site it is met at. -/
theorem Definition.Met.inner {d : Definition} {outer : Around} (h : d.Met root outer)
    {slot : Nat} {c c' : Compilation} {inner : Code}
    (opened : openFunction d.name d.params d.before = .ok slot c)
    (made : codeOf d.body c = .ok inner c') :
    Compiled root ⟨d.within outer, d.body, c, inner, c'⟩ := by
  obtain ⟨⟨_, _, _, code, after⟩, context, sp, hs, rfl, rfl, rfl⟩ := h
  exact hs.part (.inner opened made)

/-- At a visit the frames are those of the site's scope. -/
theorem Visit.placed {program : Program} {draws : Draws} {point : Point} {depth n : Nat}
    {frames : Frames} {code : Code} {c : Compilation} (hroot : codeOf root {} = .ok code c)
    (h : Visit program draws point root depth s frames n) :
    Compiled root s ∧ frames.length = s.around.values := by
  induction h with
  | root made => exact ⟨.root made, rfl⟩
  | part whole part run ih =>
    obtain ⟨hne, hlen⟩ := run.length
    exact ⟨ih.1.part part, by rw [hlen, part.values hne, ih.2]⟩
  | same whole part position code ih =>
    obtain rfl | rfl := position
    · exact ⟨ih.1.part part, by rw [part.values nofun, ih.2]; rfl⟩
    · exact ⟨ih.1.part part, by rw [part.values nofun, ih.2]; rfl⟩
  | @enter _ _ _ _ _ c _ hops codes _ frames _ values _ d outer _ _ _ _ whole sofar resolved opened
      made ih =>
    obtain ⟨d', outer', hd, below, fits, ready, -, rfl, hcodes⟩ := (ih.1.placed hroot).call
    cases resolved.symm.trans hd
    refine ⟨ready.met.inner opened made, ?_⟩
    have hframes := (ih.1.placed hroot).fits.depth_eq
    have hbody := (fits.within ready).depth_eq
    have hvalues := runAll_length sofar
    rw [inside, Scope.unmarked_pushValues, Scope.pushValues_depth] at hbody
    simp only [Scope.unmarked_depth, Scope.pushFunction] at hframes hbody
    rw [← hbody, Frames.ofCall, List.length_append, List.length_reverse, List.length_drop, ih.2,
      ← hframes, hvalues, hcodes]
    omega

variable {program : Program} {frames : Frames}

theorem Site.Placed.counts (h : s.Placed root table) : s.Counts where
  value {n sp slot} _ hl := by
    have hr := h.fits.resolves n.name
    rw [Scope.lookup_unmarked, hl] at hr
    generalize s.around.resolve? n.name = b at hr
    cases hr with
    | value below => exact below
  function {n args sp index arity depth} _ hl := by
    have hr := h.fits.resolves n.name
    rw [Scope.lookup_unmarked, hl] at hr
    generalize s.around.resolve? n.name = b at hr
    cases hr with
    | function below => exact below

/-- Code that reads a frame was made where the scope has that frame. -/
theorem Lowers.frame_below {random : Bool} (e : Expr) : ∀ {s : Scope} {hops : Nat},
    Lowers table random s e (.frame hops) →
    (∀ {name slot}, (s.lookup name).1 = some (.value slot) → slot < s.depth) →
      hops < s.depth := by
  intro s hops hl hs
  cases hl with
  | slot found =>
    have hslot := hs found
    simp only [Scope.hopsTo]
    omega
  | @plus s operand sp code part => exact Lowers.frame_below operand part hs
  | @function s n params body context sp index inner code entry first second =>
    have hlt := Lowers.frame_below context second fun {name slot} hl => by
      rw [Scope.lookup_pushFunction] at hl
      by_cases hn : n.name = name
      · rw [if_pos hn] at hl
        cases hl
      · rw [if_neg hn] at hl
        exact hs hl
    exact hlt

theorem Site.Placed.frame {hops : Nat} (h : s.Placed root table) (hcode : s.code = .frame hops) :
    hops < s.before.scope.depth := by
  have hl : Lowers table true s.before.scope.unmarked s.expr s.code :=
    codeOf_lowers s.expr h.made h.holds fun _ => rfl
  rw [hcode] at hl
  have hlt := Lowers.frame_below s.expr hl fun {name slot} found => by
    have hr := h.fits.resolves name
    rw [found] at hr
    generalize s.around.resolve? name = b at hr
    cases hr with
    | value below => exact below
  exact hlt

variable {program : Program} {frames : Frames}

theorem Site.Placed.addresses (h : s.Placed root program.functions)
    (hframes : frames.length = s.around.values) : s.Addresses root program frames := by
  have hdepth : frames.length = s.before.scope.depth := hframes.trans h.fits.depth_eq.symm
  refine ⟨hdepth, fun hcode => ?_, fun {n args sp index hops codes} he hcode => ?_⟩
  · rw [hdepth]
    exact h.frame hcode
  · obtain ⟨around, e, c, code, c'⟩ := s
    obtain rfl : e = .call n args sp := he
    obtain rfl : code = .call index hops codes := hcode
    obtain ⟨d, outer, hd, below, fits, ready, rfl, rfl, -⟩ := h.call
    obtain ⟨inner, c₁, hinner, hentry, -⟩ := ready.entry
    refine ⟨d, outer, hd, ready.met, ?_, ?_, _, _, inner, c₁, openFunction_apply _ _ _, hinner,
      hentry⟩
    · rw [hdepth]
      exact Nat.sub_le _ _
    · rw [List.length_drop, hdepth]
      exact Nat.sub_sub_self below

end Heightfield
