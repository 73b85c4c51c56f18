import Fluxion.Proofs.Expr.NestingLimit
import Fluxion.Proofs.Expr.Viable
import Fluxion.Proofs.Token.Pieces

/-!
# Fragments of an expression

Every part of an expression is derived from its own tokens, whatever stands around them, and its
span is the one that they cover. So the text in that span, taken by itself, is read as the same
part. Only the offsets are counted from the start of the fragment.
-/

namespace Fluxion

namespace Expr

variable {α : Type}

/-- The expression and everything that it is made of. -/
def nodes : Expr α → List (Expr α)
  | number value span => [number value span]
  | symbol name span => [symbol name span]
  | paren inner span => paren inner span :: inner.nodes
  | call func name nameSpan arg parens => call func name nameSpan arg parens :: arg.nodes
  | negation sign operand span => negation sign operand span :: operand.nodes
  | binary op left right span => binary op left right span :: (left.nodes ++ right.nodes)

theorem mem_nodes_self (e : Expr α) : e ∈ e.nodes := by
  cases e <;> exact List.mem_cons_self

theorem left_nodes_subset (op : Operator) (left right : Expr α) (span : Span) :
    left.nodes ⊆ (binary op left right span).nodes :=
  List.subset_cons_of_subset _ (List.subset_append_left _ _)

theorem right_nodes_subset (op : Operator) (left right : Expr α) (span : Span) :
    right.nodes ⊆ (binary op left right span).nodes :=
  List.subset_cons_of_subset _ (List.subset_append_right _ _)

/-- The expression, further on in a text. -/
def shift (n : Nat) : Expr α → Expr α
  | number value span => number value (span.shift n)
  | symbol name span => symbol name (span.shift n)
  | paren inner span => paren (inner.shift n) (span.shift n)
  | call func name nameSpan arg parens =>
    call func name (nameSpan.shift n) (arg.shift n) (parens.shift n)
  | negation sign operand span => negation (sign.shift n) (operand.shift n) (span.shift n)
  | binary op left right span =>
    binary { op with span := op.span.shift n } (left.shift n) (right.shift n) (span.shift n)

theorem span_shift (n : Nat) (e : Expr α) : (e.shift n).span = e.span.shift n := by
  cases e <;> rfl

theorem shift_join (n : Nat) (joiner : Joiner) (written : Span) (left right : Expr α) :
    (join joiner written left right).shift n =
      join joiner (written.shift n) (left.shift n) (right.shift n) := by
  cases joiner <;> simp only [join, shift, span_shift] <;> rfl

theorem isJoined_shift (n : Nat) (e : Expr α) : (e.shift n).isJoined = e.isJoined := by
  cases e <;> rfl

theorem levels_shift (n : Nat) (e : Expr α) :
    (e.shift n).lead = e.lead ∧ (e.shift n).extent = e.extent := by
  induction e with
  | number _ _ | symbol _ _ => exact ⟨rfl, rfl⟩
  | paren inner span ih | call _ _ _ inner _ ih | negation _ inner _ ih =>
    simp only [shift, lead, extent, ih, and_self]
  | binary op left right span ihl ihr =>
    simp only [shift, lead, extent, isJoined_shift, ihl, ihr, and_self]

theorem need_shift (n : Nat) (e : Expr α) : (e.shift n).need = e.need := by
  rw [need, need, body, body, (levels_shift n e).1, (levels_shift n e).2]

theorem lead_le_need (e : Expr α) : e.lead ≤ e.need :=
  Nat.le_trans (Nat.le_max_left _ _) (Nat.le_add_left _ _)

/-- A part of an expression needs no more levels than all of it. -/
theorem need_le_of_mem_nodes {e n : Expr α} (h : n ∈ e.nodes) : n.need ≤ e.need := by
  induction e with
  | number _ _ | symbol _ _ => exact Nat.le_of_eq (congrArg need (List.mem_singleton.1 h))
  | paren inner span ih =>
    rcases List.mem_cons.1 h with rfl | h
    · exact Nat.le_refl _
    · exact (ih h).trans (lead_le_need (paren inner span))
  | call func name nameSpan arg parens ih =>
    rcases List.mem_cons.1 h with rfl | h
    · exact Nat.le_refl _
    · have hlead := lead_le_need (call func name nameSpan arg parens)
      rw [lead_call] at hlead
      exact (ih h).trans ((Nat.le_add_left _ _).trans hlead)
  | negation sign operand span ih =>
    rcases List.mem_cons.1 h with rfl | h
    · exact Nat.le_refl _
    · exact (ih h).trans (lead_le_need (negation sign operand span))
  | binary op left right span ihl ihr =>
    have hneed := need_binary op left right span
    rcases List.mem_cons.1 h with rfl | h
    · exact Nat.le_refl _
    rcases List.mem_append.1 h with h | h
    · have hleft := ihl h
      omega
    · have hright : right.need ≤ 1 + right.afterOperator :=
        Nat.add_le_add_left right.body_le_afterOperator 1
      have hn := ihr h
      omega

section

variable [Scalar α]

theorem proper_shift (n : Nat) (e : Expr α) : (e.shift n).Proper ↔ e.Proper := by
  induction e with
  | number _ _ | symbol _ _ => exact Iff.rfl
  | paren _ _ ih | call _ _ _ _ _ ih | negation _ _ _ ih => exact ih
  | binary _ _ _ _ ihl ihr => exact and_congr ihl ihr

theorem Proper.of_mem_nodes {e n : Expr α} (he : e.Proper) (h : n ∈ e.nodes) : n.Proper := by
  induction e with
  | number _ _ | symbol _ _ =>
    rw [List.mem_singleton.1 h]
    exact he
  | paren _ _ ih | call _ _ _ _ _ ih | negation _ _ _ ih =>
    rcases List.mem_cons.1 h with rfl | h
    · exact he
    · exact ih he h
  | binary _ _ _ _ ihl ihr =>
    rcases List.mem_cons.1 h with rfl | h
    · exact he
    · exact (List.mem_append.1 h).elim (ihl he.1) (ihr he.2)

end

end Expr

/-! ## The same tokens elsewhere -/

/-- The tokens around a place are the nearest ones to another place, further on in a text. Nothing
more than them is ahead of the other place. -/
structure Cursor.Mirrors (n : Nat) (d c : Cursor) : Prop where
  passed : d.passed.map (Token.shift n) <+: c.passed
  ahead : d.ahead.map (Token.shift n) = c.ahead

/-- Past the next token, the one place still mirrors the other. -/
theorem Cursor.Mirrors.of_cons {n : Nat} {d : Cursor} {t : Token} {passed ahead : List Token}
    (h : d.Mirrors n ⟨passed, t :: ahead⟩) :
    ∃ passed' t' ahead', d = ⟨passed', t' :: ahead'⟩ ∧ t'.shift n = t ∧
      Cursor.Mirrors n ⟨t' :: passed', ahead'⟩ ⟨t :: passed, ahead⟩ := by
  obtain ⟨passed', rest⟩ := d
  obtain ⟨t', ahead', rfl, ht, hahead⟩ := List.map_eq_cons_iff.1 h.ahead
  exact ⟨passed', t', ahead', rfl, ht, List.cons_prefix_cons.2 ⟨ht, h.passed⟩, hahead⟩

namespace Expr

variable {α : Type} [Numeral α]

/-- What is derived stands from its first token to its last one. -/
theorem Derives.span_eq {cat : Category} {c c' : Cursor} {e : Expr α} (h : Derives cat c e c') :
    ∃ t ts u us, c.ahead = t :: ts ∧ c'.passed = u :: us ∧ e.span = t.span.cover u.span := by
  induction h with
  | number _ | symbol _ _ _ | paren _ _ _ _ | call _ _ _ _ _ _ =>
    exact ⟨_, _, _, _, rfl, rfl, rfl⟩
  | atom _ ih | unsigned _ ih | factor _ ih | term _ ih => exact ih
  | negation _ _ ih =>
    obtain ⟨_, _, u, us, -, hlast, hspan⟩ := ih
    refine ⟨_, _, u, us, rfl, hlast, ?_⟩
    rw [span, hspan]
    rfl
  | power _ _ _ ihl ihr | product _ _ _ _ ihl ihr | juxtaposed _ _ _ _ ihl ihr
    | sum _ _ _ _ ihl ihr =>
    obtain ⟨t, ts, _, _, hfirst, -, hleft⟩ := ihl
    obtain ⟨_, _, u, us, -, hlast, hright⟩ := ihr
    refine ⟨t, ts, u, us, hfirst, hlast, ?_⟩
    rw [join, span, hleft, hright]
    rfl

/-- An expression is also derived where its tokens stand without what is around them. -/
theorem Derives.unshift {cat : Category} {c c' : Cursor} {e : Expr α} (h : Derives cat c e c')
    {n : Nat} {d : Cursor} (hd : d.Mirrors n c) :
    ∃ r d', Derives cat d r d' ∧ d'.Mirrors n c' ∧ r.shift n = e := by
  induction h generalizing d with
  | number hkind =>
    obtain ⟨passed, t, ahead, rfl, rfl, hafter⟩ := hd.of_cons
    exact ⟨_, _, .number hkind, hafter, rfl⟩
  | @symbol _ ahead₀ _ hkind hname hnext =>
    obtain ⟨passed, t, ahead, rfl, rfl, hafter⟩ := hd.of_cons
    refine ⟨_, _, .symbol hkind hname ?_, hafter, rfl⟩
    intro u hu
    have hahead : ahead.map (Token.shift n) = ahead₀ := hafter.ahead
    refine hnext (u.shift n) ?_
    rw [← hahead, List.head?_map, hu]
    rfl
  | paren hopening hclosing _ ih =>
    obtain ⟨passed, opening, ahead, rfl, rfl, hinside⟩ := hd.of_cons
    obtain ⟨r, d', hr, hd', rfl⟩ := ih hinside
    obtain ⟨passed', closing, ahead', rfl, rfl, hafter⟩ := hd'.of_cons
    exact ⟨.paren r (opening.span.cover closing.span), ⟨closing :: passed', ahead'⟩,
      .paren hopening hclosing hr, hafter, rfl⟩
  | call hkind hname hopening hclosing _ ih =>
    obtain ⟨passed, name, ahead, rfl, rfl, hname'⟩ := hd.of_cons
    obtain ⟨passed₁, opening, ahead₁, heq, rfl, hinside⟩ := hname'.of_cons
    obtain ⟨rfl, rfl⟩ := Cursor.mk.inj heq
    obtain ⟨r, d', hr, hd', rfl⟩ := ih hinside
    obtain ⟨passed', closing, ahead', rfl, rfl, hafter⟩ := hd'.of_cons
    exact ⟨.call _ name.lexeme name.span r (opening.span.cover closing.span),
      ⟨closing :: passed', ahead'⟩, .call hkind hname hopening hclosing hr, hafter, rfl⟩
  | atom _ ih =>
    obtain ⟨r, d', hr, hd', heq⟩ := ih hd
    exact ⟨r, d', .atom hr, hd', heq⟩
  | unsigned _ ih =>
    obtain ⟨r, d', hr, hd', heq⟩ := ih hd
    exact ⟨r, d', .unsigned hr, hd', heq⟩
  | factor _ ih =>
    obtain ⟨r, d', hr, hd', heq⟩ := ih hd
    exact ⟨r, d', .factor hr, hd', heq⟩
  | term _ ih =>
    obtain ⟨r, d', hr, hd', heq⟩ := ih hd
    exact ⟨r, d', .term hr, hd', heq⟩
  | negation hkind _ ih =>
    obtain ⟨passed, t, ahead, rfl, rfl, hoperand⟩ := hd.of_cons
    obtain ⟨r, d', hr, hd', rfl⟩ := ih hoperand
    refine ⟨_, d', .negation hkind hr, hd', ?_⟩
    rw [shift, span_shift]
    rfl
  | power _ hkind _ ihl ihr =>
    obtain ⟨l, m, hl, hm, rfl⟩ := ihl hd
    obtain ⟨passed, t, ahead, rfl, rfl, hoperator⟩ := hm.of_cons
    obtain ⟨r, d', hr, hd', rfl⟩ := ihr hoperator
    exact ⟨_, d', .power hl hkind hr, hd', shift_join ..⟩
  | product _ hkind hop _ ihl ihr =>
    obtain ⟨l, m, hl, hm, rfl⟩ := ihl hd
    obtain ⟨passed, t, ahead, rfl, rfl, hoperator⟩ := hm.of_cons
    obtain ⟨r, d', hr, hd', rfl⟩ := ihr hoperator
    exact ⟨_, d', .product hl hkind hop hr, hd', shift_join ..⟩
  | @juxtaposed _ _ passed ahead before after _ _ _ hbefore hafter _ ihl ihr =>
    obtain ⟨l, m, hl, hm, rfl⟩ := ihl hd
    obtain ⟨r, d', hr, hd', rfl⟩ := ihr hm
    -- the token before the place is the last one of the left operand
    obtain ⟨-, -, u, us, -, hu, -⟩ := hl.span_eq
    obtain ⟨passed, ahead⟩ := m
    obtain ⟨t', ahead', rfl, rfl, -⟩ := List.map_eq_cons_iff.1 hm.ahead
    dsimp only at hu
    subst hu
    obtain ⟨rfl, -⟩ := List.cons_prefix_cons.1 hm.passed
    exact ⟨_, d', .juxtaposed hl hbefore hafter hr, hd', shift_join ..⟩
  | sum _ hkind hop _ ihl ihr =>
    obtain ⟨l, m, hl, hm, rfl⟩ := ihl hd
    obtain ⟨passed, t, ahead, rfl, rfl, hoperator⟩ := hm.of_cons
    obtain ⟨r, d', hr, hd', rfl⟩ := ihr hoperator
    exact ⟨_, d', .sum hl hkind hop hr, hd', shift_join ..⟩

/-! ## Parts among the tokens of the whole -/

/-- The expression is derived somewhere among the tokens. -/
def DerivedIn (tokens : List Token) (e : Expr α) : Prop :=
  ∃ cat c c', Derives cat c e c' ∧ c.tokens = tokens

theorem derivedIn_join {c m c' : Cursor} {cat catl : Category} {joiner : Joiner} {written : Span}
    {left right : Expr α} (h : Derives cat c (join joiner written left right) c')
    (hleft : Derives catl c left m) (ihl : ∀ n ∈ left.nodes, DerivedIn c.tokens n)
    (ihr : ∀ n ∈ right.nodes, DerivedIn m.tokens n) :
    ∀ n ∈ (join joiner written left right).nodes, DerivedIn c.tokens n := by
  intro n hn
  rcases List.mem_cons.1 hn with rfl | hn
  · exact ⟨_, _, _, h, rfl⟩
  rcases List.mem_append.1 hn with hn | hn
  · exact ihl n hn
  · rw [← hleft.tokens_eq]
    exact ihr n hn

/-- Every part of an expression is derived among its tokens. -/
theorem Derives.derivedIn {cat : Category} {c c' : Cursor} {e : Expr α} (h : Derives cat c e c') :
    ∀ n ∈ e.nodes, DerivedIn c.tokens n := by
  induction h with
  | number hkind =>
    intro n hn
    rw [List.mem_singleton.1 hn]
    exact ⟨_, _, _, .number hkind, rfl⟩
  | symbol hkind hname hnext =>
    intro n hn
    rw [List.mem_singleton.1 hn]
    exact ⟨_, _, _, .symbol hkind hname hnext, rfl⟩
  | paren hopening hclosing he ih =>
    intro n hn
    rcases List.mem_cons.1 hn with rfl | hn
    · exact ⟨_, _, _, .paren hopening hclosing he, rfl⟩
    · simpa [Cursor.tokens] using ih n hn
  | call hkind hname hopening hclosing he ih =>
    intro n hn
    rcases List.mem_cons.1 hn with rfl | hn
    · exact ⟨_, _, _, .call hkind hname hopening hclosing he, rfl⟩
    · simpa [Cursor.tokens] using ih n hn
  | negation hkind he ih =>
    intro n hn
    rcases List.mem_cons.1 hn with rfl | hn
    · exact ⟨_, _, _, .negation hkind he, rfl⟩
    · simpa [Cursor.tokens] using ih n hn
  | atom _ ih | unsigned _ ih | factor _ ih | term _ ih => exact ih
  | power hl hkind hr ihl ihr =>
    exact derivedIn_join (.power hl hkind hr) hl ihl (by simpa [Cursor.tokens] using ihr)
  | product hl hkind hop hr ihl ihr =>
    exact derivedIn_join (.product hl hkind hop hr) hl ihl (by simpa [Cursor.tokens] using ihr)
  | juxtaposed hl hbefore hafter hr ihl ihr =>
    exact derivedIn_join (.juxtaposed hl hbefore hafter hr) hl ihl ihr
  | sum hl hkind hop hr ihl ihr =>
    exact derivedIn_join (.sum hl hkind hop hr) hl ihl (by simpa [Cursor.tokens] using ihr)

/-- An operator stands between its operands: either its token does, or nothing at all. -/
theorem Derives.operands {cat : Category} {c c' : Cursor} {op : Operator} {left right : Expr α}
    {span : Span} (h : Derives cat c (binary op left right span) c') :
    ∃ catl catr m m', Derives catl c left m ∧ Derives catr m' right c' ∧
      ((op.implicit = false ∧ ∃ passed t ahead, m = ⟨passed, t :: ahead⟩ ∧
          m' = ⟨t :: passed, ahead⟩ ∧ op.span = t.span) ∨
        (m = m' ∧ op.span = left.span.gap right.span)) := by
  generalize he : binary op left right span = e at h
  induction h with
  | number _ | symbol _ _ _ | paren _ _ _ _ | call _ _ _ _ _ _ | negation _ _ _ => cases he
  | atom _ ih | unsigned _ ih | factor _ ih | term _ ih => exact ih he
  | power hl _ hr _ _ | product hl _ _ hr _ _ | sum hl _ _ hr _ _ =>
    cases he
    exact ⟨_, _, _, _, hl, hr, .inl ⟨rfl, _, _, _, rfl, rfl, rfl⟩⟩
  | juxtaposed hl _ _ hr _ _ =>
    cases he
    exact ⟨_, _, _, _, hl, hr, .inr ⟨rfl, rfl⟩⟩

variable {text : String}

/-- What is derived is spelled by the text in its span. -/
theorem Derives.fragment {cat : Category} {c c' : Cursor} {e : Expr α} (h : Derives cat c e c')
    (hc : c.tokens = meaningful text) :
    ∃ piece r, e.span.Marks text piece ∧ Spells piece r ∧ r.shift e.span.start = e := by
  obtain ⟨t, taken, hahead, hpassed, halone⟩ := h.replace (mayReplace_nil c'.ahead)
  obtain ⟨t', ts, u, us, hfirst, hlast, hspan⟩ := h.span_eq
  rw [List.append_nil] at halone
  obtain rfl : t' = t := (List.cons.inj (hfirst.symm.trans hahead)).1
  have hend : (t' :: taken).getLast? = some u := by
    rw [hlast] at hpassed
    rw [List.getLast?_eq_head?_reverse]
    cases hreverse : (t' :: taken).reverse with
    | nil => simp at hreverse
    | cons v vs =>
      rw [hreverse] at hpassed
      exact congrArg some (List.cons.inj hpassed).1.symm
  have htokens : meaningful text = c.passed.reverse ++ (t' :: taken) ++ c'.ahead := by
    rw [← hc, Cursor.tokens, hahead, List.append_assoc]
  obtain ⟨piece, hmarks, hpiece⟩ := Token.exists_piece htokens rfl hend
  have hmirrors : Cursor.Mirrors t'.span.start ⟨[], meaningful piece⟩ ⟨c.passed, t' :: taken⟩ :=
    ⟨List.nil_prefix, hpiece⟩
  obtain ⟨r, d, hr, hd, hshift⟩ := halone.unshift hmirrors
  obtain ⟨passed, ahead⟩ := d
  obtain rfl : ahead = [] := List.map_eq_nil_iff.1 hd.ahead
  refine ⟨piece, r, ?_, (hr.loosen (by cases cat <;> decide)).spells, ?_⟩
  · rw [hspan]
    exact hmarks
  · rw [hspan]
    exact hshift

/-- An operator stands between its operands, and where one is left out there is nothing but space.
-/
theorem Derives.between {cat : Category} {c c' : Cursor} {op : Operator} {left right : Expr α}
    {span : Span} (h : Derives cat c (binary op left right span) c')
    (hc : c.tokens = meaningful text) :
    left.span.stop ≤ op.span.start ∧ op.span.start ≤ op.span.stop ∧
      op.span.stop ≤ right.span.start ∧
      (op.implicit = true → op.span = left.span.gap right.span ∧
        ∃ gap, op.span.Marks text gap ∧ ∀ c ∈ gap.toList, c ∈ [' ', '\t', '\n', '\r']) := by
  obtain ⟨catl, catr, m, m', hl, hr, hbetween⟩ := h.operands
  obtain ⟨_, _, u, us, -, hu, hleft⟩ := hl.span_eq
  obtain ⟨v, vs, _, _, hv, -, hright⟩ := hr.span_eq
  have hm : m.tokens = meaningful text := hl.tokens_eq.trans hc
  have hcovers := Token.scan_covers text
  have hpairwise : (meaningful text).Pairwise fun t u => t.span.stop ≤ u.span.start :=
    hcovers.pairwise.filter _
  rw [hleft, hright]
  rcases hbetween with ⟨hop, passed, t, ahead, rfl, rfl, hspan⟩ | ⟨rfl, hspan⟩
  · dsimp only at hu hv
    subst hu hv
    rw [← hm, Cursor.tokens, List.pairwise_append] at hpairwise
    obtain ⟨-, hahead, hacross⟩ := hpairwise
    have ht : t ∈ meaningful text := by
      rw [← hm]
      exact List.mem_append_right _ List.mem_cons_self
    have hproper := (hcovers.of_mem (List.mem_of_mem_filter ht)).2.1
    rw [hspan, hop]
    refine ⟨hacross u (by simp) t List.mem_cons_self, Nat.le_of_lt hproper,
      (List.pairwise_cons.1 hahead).1 v List.mem_cons_self, ?_⟩
    rintro ⟨⟩
  · have htokens : meaningful text = us.reverse ++ u :: v :: vs := by
      rw [← hm, Cursor.tokens, hu, hv]
      simp
    rw [htokens, List.pairwise_append] at hpairwise
    have hle : u.span.stop ≤ v.span.start :=
      (List.pairwise_cons.1 hpairwise.2.1).1 v List.mem_cons_self
    have hgap : op.span = u.span.gap v.span := by
      rw [hspan, hleft, hright]
      rfl
    rw [hgap]
    exact ⟨Nat.le_refl _, hle, Nat.le_refl _, fun _ => ⟨rfl, Token.exists_gap htokens⟩⟩

variable [Scalar α]

/-- Every part of an expression that is read stands for itself: the text in its span is read as just
this part, with its offsets counted from there. An operator stands between its operands, and the
span of one that is left out is the gap between them, where nothing stands but blanks and line
breaks. -/
theorem ofText_fragments {text : String} {e : Expr α} (h : ofText text = .ok e) :
    (∀ n ∈ e.nodes, ∃ piece r, n.span.Marks text piece ∧ ofText piece = .ok r ∧
      r.shift n.span.start = n) ∧
    ∀ op left right span, binary op left right span ∈ e.nodes →
      left.span.stop ≤ op.span.start ∧ op.span.start ≤ op.span.stop ∧
      op.span.stop ≤ right.span.start ∧
      (op.implicit = true → op.span = left.span.gap right.span ∧
        ∃ gap, op.span.Marks text gap ∧ ∀ c ∈ gap.toList, c ∈ [' ', '\t', '\n', '\r']) := by
  obtain ⟨hspells, hproper⟩ := spells_of_ofText h
  have hneed := (ofText_iff_need_le hspells hproper).1 h
  constructor
  · intro n hn
    obtain ⟨cat, c, c', hderives, hc⟩ := Derives.derivedIn hspells n hn
    obtain ⟨piece, r, hmarks, hr, hshift⟩ := hderives.fragment hc
    have hrproper : r.Proper := by
      rw [← proper_shift n.span.start, hshift]
      exact hproper.of_mem_nodes hn
    have hrneed : r.need ≤ maxNesting := by
      rw [← need_shift n.span.start, hshift]
      exact (need_le_of_mem_nodes hn).trans hneed
    exact ⟨piece, r, hmarks, (ofText_iff_need_le hr hrproper).2 hrneed, hshift⟩
  · intro op left right span hn
    obtain ⟨cat, c, c', hderives, hc⟩ := Derives.derivedIn hspells _ hn
    exact hderives.between hc

/-- In `−(x) y^z` the sign takes up three bytes, and the two factors are multiplied in the space
between them. -/
theorem ofText_fragments_juxtaposed :
    let left : Expr Float := .negation ⟨0, 3⟩ (.paren (.symbol "x" ⟨4, 5⟩) ⟨3, 6⟩) ⟨0, 6⟩
    let right : Expr Float :=
      .binary ⟨.power, false, ⟨8, 9⟩⟩ (.symbol "y" ⟨7, 8⟩) (.symbol "z" ⟨9, 10⟩) ⟨7, 10⟩
    let e : Expr Float := .binary ⟨.times, true, ⟨6, 7⟩⟩ left right ⟨0, 10⟩
    ofText "−(x) y^z" = .ok e ∧
    (∀ n ∈ e.nodes, ∃ piece r, n.span.Marks "−(x) y^z" piece ∧ ofText piece = .ok r ∧
      r.shift n.span.start = n) ∧
    ∃ gap, Span.Marks ⟨6, 7⟩ "−(x) y^z" gap ∧ ∀ c ∈ gap.toList, c ∈ [' ', '\t', '\n', '\r'] := by
  intro left right e
  have hok : ofText "−(x) y^z" = .ok e := by cbv
  obtain ⟨hnodes, hoperators⟩ := ofText_fragments hok
  obtain ⟨-, -, -, himplicit⟩ := hoperators _ left right _ List.mem_cons_self
  exact ⟨hok, hnodes, (himplicit rfl).2⟩

end Expr

end Fluxion
