import Heightfield.Proofs.Grammar.Places

/-! The spans of a parsed tree are nested as its nodes are. Each reaches from the start of one token
to the end of another, and what a node is made of stands inside it, one part behind another. -/

namespace Heightfield

/-- The spans of the names and of the expressions that a node is made of, from left to right. -/
def Expr.parts : Expr → List Span
  | .number _ _ => []
  | .reference n _ => [n.span]
  | .call n args _ => n.span :: args.map (·.span)
  | .unary _ _ operand _ => [operand.span]
  | .binary _ left right _ => [left.span, right.span]
  | .binding n bound body _ => [n.span, bound.span, body.span]
  | .function n params body context _ =>
    n.span :: (params.map (·.span) ++ [body.span, context.span])
  | .conditional condition positive negative _ => [condition.span, positive.span, negative.span]

/-- From the start of one of the tokens to the end of one of them, and not empty. -/
structure Spanned (ls : List Lexeme) (s : Span) : Prop where
  nonempty : s.start < s.stop
  starts : ∃ l ∈ ls, l.span.start = s.start
  stops : ∃ l ∈ ls, l.span.stop = s.stop

/-- How a node stands among the tokens, and its parts in it. -/
structure Expr.Nested (ls : List Lexeme) (node : Expr) : Prop where
  spanned : Spanned ls node.span
  parts : ∀ part ∈ node.parts, Spanned ls part
  inside : ∀ part ∈ node.parts, node.span.start ≤ part.start ∧ part.stop ≤ node.span.stop
  ordered : node.parts.Pairwise fun a b => a.stop ≤ b.start

/-- Tokens that stand one behind another. -/
structure Rising (ls : List Lexeme) : Prop where
  ordered : ls.Pairwise fun a b => a.span.stop ≤ b.span.start
  nonempty : ∀ l ∈ ls, l.span.start < l.span.stop

namespace Rising

variable {us vs ls : List Lexeme} {a b last : Lexeme}

theorem inside (h : Rising vs) (hus : us.Sublist vs) : Rising us where
  ordered := h.ordered.sublist hus
  nonempty l hl := h.nonempty l (hus.subset hl)

theorem left (h : Rising (us ++ vs)) : Rising us := h.inside (List.sublist_append_left us vs)

theorem right (h : Rising (us ++ vs)) : Rising vs := h.inside (List.sublist_append_right us vs)

theorem head (h : Rising (a :: ls)) : Rising [a] :=
  h.inside (List.singleton_sublist.2 List.mem_cons_self)

theorem tail (h : Rising (a :: ls)) : Rising ls := h.inside (List.sublist_cons_self a ls)

theorem start_le (h : Rising (a :: ls)) (hb : b ∈ a :: ls) : a.span.start ≤ b.span.start := by
  rcases List.mem_cons.1 hb with rfl | hb
  · exact Nat.le_refl _
  · have hle := (List.pairwise_cons.1 h.ordered).1 b hb
    exact Nat.le_trans (Nat.le_of_lt (h.nonempty a List.mem_cons_self)) hle

/-- No other token starts where one does. -/
theorem start_ne (h : Rising (us ++ a :: vs)) :
    (∀ b ∈ us, b.span.start ≠ a.span.start) ∧ ∀ b ∈ vs, b.span.start ≠ a.span.start := by
  obtain ⟨-, hvs, hus⟩ := List.pairwise_append.1 h.ordered
  constructor
  · intro b hb
    have hlt := h.nonempty b (List.mem_append_left _ hb)
    have hle := hus b hb a List.mem_cons_self
    omega
  · intro b hb
    have hlt := h.nonempty a (List.mem_append_right _ List.mem_cons_self)
    have hle := (List.pairwise_cons.1 hvs).1 b hb
    omega

theorem le_stop (h : Rising ls) (hlast : ls.getLast? = some last) (hb : b ∈ ls) :
    b.span.stop ≤ last.span.stop := by
  obtain ⟨front, rfl⟩ := List.getLast?_eq_some_iff.1 hlast
  rcases List.mem_append.1 hb with hb | hb
  · have hle := (List.pairwise_append.1 h.ordered).2.2 b hb last (List.mem_singleton_self _)
    have hlt := h.nonempty last (List.mem_append_right _ (List.mem_singleton_self _))
    exact Nat.le_trans hle (Nat.le_of_lt hlt)
  · rw [List.mem_singleton.1 hb]

end Rising

theorem lex_rising {source : String} {lexemes : List Lexeme} (h : lex source = .ok lexemes) :
    Rising lexemes := by
  have htiles := (Lexer.scans_of_ok (lex_eq_ok.1 h)).tiles_source rfl
  exact ⟨htiles.ordered, htiles.nonempty⟩

namespace Spanned

variable {us vs ls : List Lexeme} {s s' : Span} {a b last : Lexeme}

theorem inside (h : Spanned us s) (hus : us ⊆ vs) : Spanned vs s where
  nonempty := h.nonempty
  starts := h.starts.imp fun _ hl => ⟨hus hl.1, hl.2⟩
  stops := h.stops.imp fun _ hl => ⟨hus hl.1, hl.2⟩

theorem le_of_append (h : Spanned us s) (h' : Spanned vs s') (hrising : Rising (us ++ vs)) :
    s.stop ≤ s'.start := by
  obtain ⟨a, ha, hstop⟩ := h.stops
  obtain ⟨b, hb, hstart⟩ := h'.starts
  rw [← hstop, ← hstart]
  exact (List.pairwise_append.1 hrising.ordered).2.2 a ha b hb

theorem through (h : Spanned us s) (h' : Spanned vs s') (hrising : Rising (us ++ vs)) :
    Spanned (us ++ vs) (s.through s') where
  nonempty := by
    have hle := h.le_of_append h' hrising
    have hlt := h.nonempty
    have hlt' := h'.nonempty
    simp only [Span.through]
    omega
  starts := (h.inside (List.subset_append_left us vs)).starts
  stops := (h'.inside (List.subset_append_right us vs)).stops

theorem inside_through (h : Spanned us s) (h' : Spanned vs s') (hrising : Rising (us ++ vs)) :
    s.stop ≤ (s.through s').stop ∧ (s.through s').start ≤ s'.start := by
  have hle := h.le_of_append h' hrising
  exact ⟨Nat.le_trans hle (Nat.le_of_lt h'.nonempty), Nat.le_trans (Nat.le_of_lt h.nonempty) hle⟩

theorem ofToken (hrising : Rising ls) (ha : a ∈ ls) : Spanned ls a.span :=
  ⟨hrising.nonempty a ha, ⟨a, ha, rfl⟩, ⟨a, ha, rfl⟩⟩

/-- All the tokens. -/
theorem ofEnds (hrising : Rising (a :: ls)) (hlast : (a :: ls).getLast? = some last) :
    Spanned (a :: ls) ⟨a.span.start, last.span.stop⟩ where
  nonempty := by
    have hmem := List.mem_of_getLast? hlast
    exact Nat.lt_of_le_of_lt (hrising.start_le hmem) (hrising.nonempty last hmem)
  starts := ⟨a, List.mem_cons_self, rfl⟩
  stops := ⟨last, List.mem_of_getLast? hlast, rfl⟩

theorem inside_ends (hrising : Rising (a :: ls)) (hlast : (a :: ls).getLast? = some last)
    (h : Spanned (a :: ls) s) : a.span.start ≤ s.start ∧ s.stop ≤ last.span.stop := by
  obtain ⟨b, hb, hstart⟩ := h.starts
  obtain ⟨c, hc, hstop⟩ := h.stops
  rw [← hstart, ← hstop]
  exact ⟨hrising.start_le hb, hrising.le_stop hlast hc⟩

end Spanned

theorem IsName.spanned {ls : List Lexeme} {n : Ident} (h : IsName ls n) (hrising : Rising ls) :
    Spanned ls n.span := by
  obtain ⟨l, rfl, hl⟩ := h
  rw [← (Lexeme.ident?_eq_some.1 hl).2]
  exact .ofToken hrising (List.mem_singleton_self l)

/-- Spans in the tokens, one behind another. -/
inductive Row : List Lexeme → List Span → Prop
  | nil {ls} : Row ls []
  | cons {us vs s rest} (first : Spanned us s) (others : Row vs rest) : Row (us ++ vs) (s :: rest)

namespace Row

variable {us vs ls : List Lexeme} {s : Span} {row row' : List Span}

theorem one (h : Spanned ls s) : Row ls [s] := by
  have hrow : Row (ls ++ []) [s] := .cons h .nil
  rwa [List.append_nil] at hrow

theorem behind (h : Row vs row) (us : List Lexeme) : Row (us ++ vs) row := by
  cases h with
  | nil => exact .nil
  | cons first others =>
    rw [← List.append_assoc]
    exact .cons (first.inside (List.subset_append_right _ _)) others

theorem append (h : Row us row) (h' : Row vs row') : Row (us ++ vs) (row ++ row') := by
  induction h with
  | nil => exact h'.behind _
  | cons first _ ih =>
    rw [List.append_assoc]
    exact .cons first ih

theorem before (h : Row us row) (vs : List Lexeme) : Row (us ++ vs) row := by
  have hnone : Row vs [] := .nil
  have hrow := h.append hnone
  rwa [List.append_nil] at hrow

theorem spanned (h : Row ls row) : ∀ s ∈ row, Spanned ls s := by
  induction h with
  | nil => nofun
  | cons first _ ih =>
    refine List.forall_mem_cons.2 ⟨first.inside (List.subset_append_left _ _), fun s hs => ?_⟩
    exact (ih s hs).inside (List.subset_append_right _ _)

theorem ordered (h : Row ls row) (hrising : Rising ls) :
    row.Pairwise fun a b => a.stop ≤ b.start := by
  induction h with
  | nil => exact .nil
  | cons first others ih =>
    have hvs := hrising.inside (List.sublist_append_right _ _)
    exact .cons (fun s hs => first.le_of_append (others.spanned s hs) hrising) (ih hvs)

end Row

theorem Separated.row {α : Type} {place : α → Span} {items : List (List Lexeme × α)}
    {ls : List Lexeme} (h : Separated (items.map (·.1)) ls)
    (hitems : ∀ item ∈ items, Spanned item.1 (place item.2)) :
    Row ls (items.map fun item => place item.2) := by
  generalize hpieces : items.map (·.1) = pieces at h
  induction h generalizing items with
  | nil =>
    rw [List.map_eq_nil_iff.1 hpieces]
    exact .nil
  | one =>
    obtain ⟨item, rfl, rfl⟩ := List.map_eq_singleton_iff.1 hpieces
    exact .one (hitems item (List.mem_singleton_self item))
  | @more _ _ _ comma _ _ _ ih =>
    obtain ⟨item, rest, rfl, rfl, hrest⟩ := List.map_eq_cons_iff.1 hpieces
    obtain ⟨hitem, hothers⟩ := List.forall_mem_cons.1 hitems
    exact .cons hitem ((ih hothers hrest).behind [comma])

namespace Written

variable {ls : List Lexeme} {e : Expr}

/-- A node begins and ends with a token; the parentheses around an operand may stand outside. -/
theorem spanned (h : Written ls e) (hrising : Rising ls) : Spanned ls e.span := by
  induction h with
  | number => exact .ofToken hrising (List.mem_singleton_self _)
  | reference hl => exact IsName.spanned ⟨_, rfl, hl⟩ hrising
  | call hl =>
    rw [Expr.span, ← (Lexeme.ident?_eq_some.1 hl).2]
    exact .ofEnds hrising (by simp [List.getLast?_cons])
  | group _ _ _ ih => exact (ih hrising.tail.left).inside (by simp)
  | unary _ _ _ ih =>
    have hsign := Spanned.ofToken hrising.head (List.mem_singleton_self _)
    exact hsign.through (ih hrising.tail) hrising
  | @binary l _ _ _ ms _ _ _ _ _ ih₁ ih₂ =>
    have hsecond := (ih₂ hrising.right.tail).inside (List.subset_cons_self l ms)
    exact (ih₁ hrising.left).through hsecond hrising
  | binding _ _ _ _ _ _ hlast | function _ _ _ _ _ _ _ _ _ _ hlast
  | conditional _ _ _ _ _ _ hlast =>
    exact .ofEnds hrising (by simp [List.getLast?_append, List.getLast?_cons, hlast])

/-- The parts of a node stand in its tokens from left to right. -/
theorem row (h : Written ls e) (hrising : Rising ls) : Row ls e.parts := by
  induction h with
  | number => exact .nil
  | reference hl => exact .one (IsName.spanned ⟨_, rfl, hl⟩ hrising)
  | @call l _ opening ls closing items hl _ parts hls =>
    have hparts : ∀ item ∈ items, Spanned item.1 item.2.span := by
      intro item hitem
      have hpiece := hls.infix (List.mem_map_of_mem hitem)
      exact (parts item hitem).spanned (hrising.tail.tail.left.inside hpiece.sublist)
    have hargs := ((hls.row hparts).before [closing]).behind [opening]
    have hrow := Row.cons (IsName.spanned ⟨l, rfl, hl⟩ hrising.head) hargs
    simpa [Expr.parts, Function.comp_def] using hrow
  | @group opening _ _ closing _ _ _ ih =>
    exact ((ih hrising.tail.left).before [closing]).behind [opening]
  | @unary l _ _ _ _ _ operand => exact (Row.one (operand.spanned hrising.tail)).behind [l]
  | @binary l _ _ _ _ _ first _ _ second =>
    have hsecond := Row.one (second.spanned hrising.right.tail)
    exact .cons (first.spanned hrising.left) (hsecond.behind [l])
  | @binding opening l _ equals ls _ inner ms _ _ _ hl _ first _ second =>
    have hname := IsName.spanned ⟨l, rfl, hl⟩ hrising.tail.head
    have hfirst := first.spanned hrising.tail.tail.tail.left
    have hsecond := Row.one (second.spanned hrising.tail.tail.tail.right.tail)
    have hrow := Row.cons hname ((Row.cons hfirst (hsecond.behind [inner])).behind [equals])
    exact hrow.behind [opening]
  | @function opening l _ left ks right equals ls _ inner ms _ _ params _ hl _ names hks _ _ first _
      second =>
    have hparams : ∀ p ∈ params, Spanned p.1 p.2.span := by
      intro p hp
      have hpiece := hks.infix (List.mem_map_of_mem hp)
      exact (names p hp).spanned (hrising.tail.tail.tail.left.inside hpiece.sublist)
    have hname := IsName.spanned ⟨l, rfl, hl⟩ hrising.tail.head
    have hfirst := first.spanned hrising.tail.tail.tail.right.tail.tail.left
    have hsecond := Row.one (second.spanned hrising.tail.tail.tail.right.tail.tail.right.tail)
    have hbodies := (Row.cons hfirst (hsecond.behind [inner])).behind [right, equals]
    have hrow := Row.cons hname (((hks.row hparams).append hbodies).behind [left])
    simpa [Expr.parts, Function.comp_def] using hrow.behind [opening]
  | @conditional opening ls _ yes ms _ no ns _ _ _ first _ second _ third =>
    have hfirst := first.spanned hrising.tail.left
    have hsecond := second.spanned hrising.tail.right.tail.left
    have hthird := Row.one (third.spanned hrising.tail.right.tail.right.tail)
    have hrow := Row.cons hfirst ((Row.cons hsecond (hthird.behind [no])).behind [yes])
    exact hrow.behind [opening]

/-- A node holds its parts. -/
theorem inside (h : Written ls e) (hrising : Rising ls) :
    ∀ part ∈ e.parts, e.span.start ≤ part.start ∧ part.stop ≤ e.span.stop := by
  have hparts := (h.row hrising).spanned
  induction h with
  | number => nofun
  | reference => exact List.forall_mem_singleton.2 ⟨Nat.le_refl _, Nat.le_refl _⟩
  | call hl =>
    rw [Expr.span, ← (Lexeme.ident?_eq_some.1 hl).2]
    exact fun part hpart => Spanned.inside_ends hrising
      (by simp [List.getLast?_cons]) (hparts part hpart)
  | group _ inner _ ih => exact ih hrising.tail.left (inner.row hrising.tail.left).spanned
  | unary _ _ operand =>
    have hsign := Spanned.ofToken hrising.head (List.mem_singleton_self _)
    have hle := (hsign.inside_through (operand.spanned hrising.tail) hrising).2
    exact List.forall_mem_singleton.2 ⟨hle, Nat.le_refl _⟩
  | @binary l _ _ _ ms _ first _ _ second =>
    have hsecond := (second.spanned hrising.right.tail).inside (List.subset_cons_self l ms)
    have hle := (first.spanned hrising.left).inside_through hsecond hrising
    exact List.forall_mem_cons.2 ⟨⟨Nat.le_refl _, hle.1⟩,
      List.forall_mem_singleton.2 ⟨hle.2, Nat.le_refl _⟩⟩
  | binding _ _ _ _ _ _ hlast | function _ _ _ _ _ _ _ _ _ _ hlast
  | conditional _ _ _ _ _ _ hlast =>
    exact fun part hpart => Spanned.inside_ends hrising
      (by simp [List.getLast?_append, List.getLast?_cons, hlast]) (hparts part hpart)

theorem nested (h : Written ls e) (hrising : Rising ls) : e.Nested ls where
  spanned := h.spanned hrising
  parts := (h.row hrising).spanned
  inside := h.inside hrising
  ordered := (h.row hrising).ordered hrising

/-- A number is one of the tokens. -/
theorem number_token {v : Float} {s : Span} (h : Written ls (.number v s)) :
    ∃ l ∈ ls, ∃ digits, l.token = .number digits ∧ l.span = s ∧
      v = (Decimal.ofChars digits.toList).toFloat := by
  generalize he : Expr.number v s = e at h
  induction h with
  | number hl =>
    cases he
    exact ⟨_, List.mem_singleton_self _, _, hl, rfl, rfl⟩
  | group _ _ _ ih =>
    obtain ⟨l, hl, hnumber⟩ := ih he
    exact ⟨l, by simp [hl], hnumber⟩
  | _ => cases he

end Written

theorem Expr.Nested.inside_of_subset {us vs : List Lexeme} {node : Expr} (h : node.Nested us)
    (hus : us ⊆ vs) : node.Nested vs where
  spanned := h.spanned.inside hus
  parts part hpart := (h.parts part hpart).inside hus
  inside := h.inside
  ordered := h.ordered

/-- The text of a number, and the decimal that it denotes. -/
inductive NumberText : List Char → Decimal → Prop
  | whole {ds} (h : Decimal.Whole ds) (hne : ds ≠ []) : NumberText ds ⟨Nat.ofDigitChars 10 ds 0, 0⟩
  | pointed {ds fs} (h : Decimal.Whole ds) (hfs : ∀ c ∈ fs, c.isDigit = true)
    (hne : ds ≠ [] ∨ fs ≠ []) :
    NumberText (ds ++ '.' :: fs) ⟨Nat.ofDigitChars 10 (ds ++ fs) 0, fs.length⟩

theorem IsNumber.text {cs : List Char} (h : IsNumber cs) : NumberText cs (Decimal.ofChars cs) := by
  cases h with
  | whole h hne =>
    rw [Decimal.ofChars_whole h.digits]
    exact .whole h hne
  | pointed h hfs hne =>
    rw [Decimal.ofChars_pointed h.digits]
    exact .pointed h hfs hne

/-- Every node of a parsed tree reaches from the start of a token to the end of one and holds its
parts, which stand one behind another. A name is the text at its span, and a number the value of the
text at its span. -/
theorem parse_spans_nested {source : String} {e : Expr} (h : parse source = .ok e) :
    ∃ lexemes, lex source = .ok lexemes ∧ (∀ node ∈ e.nodes, node.Nested lexemes) ∧
      (∀ i ∈ e.idents, i.span.slice? source.toList = some i.name.toList) ∧
      ∀ v s, .number v s ∈ e.nodes → ∃ text d, s.slice? source.toList = some text ∧
        NumberText text d ∧ v = d.toFloat := by
  obtain ⟨lexemes, hlex, hwritten⟩ := parse_written h
  have htiles := (Lexer.scans_of_ok (lex_eq_ok.1 hlex)).tiles_source rfl
  have hrising := lex_rising hlex
  refine ⟨lexemes, hlex, fun node hnode => ?_, (parse_idents h).1, fun v s hnode => ?_⟩
  · obtain ⟨ms, hms, hnode⟩ := hwritten.node hnode
    exact (hnode.nested (hrising.inside hms.sublist)).inside_of_subset hms.subset
  · obtain ⟨ms, hms, hnode⟩ := hwritten.node hnode
    obtain ⟨l, hl, digits, htoken, rfl, rfl⟩ := hnode.number_token
    have hspelled := htiles.spelled l (hms.subset hl)
    have hformed := htiles.formed l (hms.subset hl)
    rw [htoken] at hspelled hformed
    exact ⟨digits.toList, _, hspelled, IsNumber.text hformed, rfl⟩

/-- The parentheses of `-(a * c) + b` stand inside the sum and outside the product. -/
theorem groupedOperand_nested :
    let product : Expr := .binary .mul (.reference ⟨"a", ⟨2, 3⟩⟩ ⟨2, 3⟩)
      (.reference ⟨"c", ⟨6, 7⟩⟩ ⟨6, 7⟩) ⟨2, 7⟩
    ∃ lexemes, lex "-(a * c) + b" = .ok lexemes ∧
      (Expr.unary .sub .prefixed product ⟨0, 7⟩).Nested lexemes ∧ product.Nested lexemes ∧
      Span.slice? ⟨11, 12⟩ "-(a * c) + b".toList = some ['b'] := by
  intro product
  let negated : Expr := .unary .sub .prefixed product ⟨0, 7⟩
  have hparse : parse "-(a * c) + b" =
      .ok (.binary .add negated (.reference ⟨"b", ⟨11, 12⟩⟩ ⟨11, 12⟩) ⟨0, 12⟩) := by cbv
  obtain ⟨lexemes, hlex, hnodes, hidents, -⟩ := parse_spans_nested hparse
  refine ⟨lexemes, hlex, hnodes negated ?_, hnodes product ?_, hidents ⟨"b", ⟨11, 12⟩⟩ ?_⟩
  · simp [Expr.nodes, negated]
  · simp [Expr.nodes, negated, product]
  · simp [Expr.idents]

end Heightfield
