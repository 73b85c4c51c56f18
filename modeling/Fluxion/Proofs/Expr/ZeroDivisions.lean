import Fluxion.Proofs.Expr.Fragments
import Fluxion.Term.OfExpr

/-!
# Divisions by a written zero

An expression is searched for a division by a zero that is written down. The search looks at a
quotient before it looks at its operands, and at the left operand before the right one. Quotients
are grouped to the left, so that the dividend of the quotient that is found may hold another one,
whose zero is written earlier. No other zero is: what is found is the earliest if and only if its
dividend is free of such divisions.
-/

namespace Fluxion.Expr

variable {α : Type}

/-! ## Expressions in their place -/

/-- Every part of the expression stands inside of it, and operands stand one after the other. -/
def Placed : Expr α → Prop
  | number _ s => s.start < s.stop
  | symbol _ s => s.start < s.stop
  | paren inner s => s.start ≤ inner.span.start ∧ inner.span.stop ≤ s.stop ∧ inner.Placed
  | call _ _ nameSpan arg parens =>
    nameSpan.start ≤ arg.span.start ∧ arg.span.stop ≤ parens.stop ∧ arg.Placed
  | negation _ operand s =>
    s.start ≤ operand.span.start ∧ operand.span.stop ≤ s.stop ∧ operand.Placed
  | binary _ left right s => s.start ≤ left.span.start ∧ left.span.stop ≤ right.span.start ∧
      right.span.stop ≤ s.stop ∧ left.Placed ∧ right.Placed

/-- No expression is empty. -/
theorem Placed.start_lt {e : Expr α} (h : e.Placed) : e.span.start < e.span.stop := by
  induction e with
  | number value s | symbol name s => exact h
  | paren inner s ih | call func name nameSpan inner s ih | negation sign inner s ih =>
    obtain ⟨hstart, hstop, hinner⟩ := h
    have hlt := ih hinner
    simp only [span, Span.cover]
    omega
  | binary op left right s ihl ihr =>
    obtain ⟨hstart, hbetween, hstop, hleft, hright⟩ := h
    have hl := ihl hleft
    have hr := ihr hright
    simp only [span]
    omega

/-- A part of an expression stands inside of it, in its place. -/
theorem Placed.of_mem_nodes {e n : Expr α} (h : e.Placed) (hn : n ∈ e.nodes) :
    e.span.start ≤ n.span.start ∧ n.span.stop ≤ e.span.stop ∧ n.Placed := by
  induction e with
  | number value s | symbol name s =>
    rw [List.mem_singleton.1 hn]
    exact ⟨Nat.le_refl _, Nat.le_refl _, h⟩
  | paren inner s ih | call func name nameSpan inner s ih | negation sign inner s ih =>
    rcases List.mem_cons.1 hn with rfl | hn
    · exact ⟨Nat.le_refl _, Nat.le_refl _, h⟩
    · obtain ⟨hstart, hstop, hinner⟩ := h
      obtain ⟨hfirst, hlast, hplaced⟩ := ih hinner hn
      exact ⟨hstart.trans hfirst, hlast.trans hstop, hplaced⟩
  | binary op left right s ihl ihr =>
    rcases List.mem_cons.1 hn with rfl | hn
    · exact ⟨Nat.le_refl _, Nat.le_refl _, h⟩
    obtain ⟨hstart, hbetween, hstop, hleft, hright⟩ := h
    have hl := hleft.start_lt
    have hr := hright.start_lt
    rcases List.mem_append.1 hn with hn | hn
    · obtain ⟨hfirst, hlast, hplaced⟩ := ihl hleft hn
      have hwhole : left.span.stop ≤ s.stop := by omega
      exact ⟨hstart.trans hfirst, hlast.trans hwhole, hplaced⟩
    · obtain ⟨hfirst, hlast, hplaced⟩ := ihr hright hn
      have hwhole : s.start ≤ right.span.start := by omega
      exact ⟨hwhole.trans hfirst, hlast.trans hstop, hplaced⟩

/-- A part of a part is a part. -/
theorem mem_nodes_trans {e n m : Expr α} (hm : m ∈ n.nodes) (hn : n ∈ e.nodes) : m ∈ e.nodes := by
  induction e with
  | number value s | symbol name s => rwa [← List.mem_singleton.1 hn]
  | paren inner s ih | call func name nameSpan inner s ih | negation sign inner s ih =>
    rcases List.mem_cons.1 hn with rfl | hn
    · exact hm
    · exact List.mem_cons_of_mem _ (ih hn)
  | binary op left right s ihl ihr =>
    rcases List.mem_cons.1 hn with rfl | hn
    · exact hm
    rcases List.mem_append.1 hn with hn | hn
    · exact List.mem_cons_of_mem _ (List.mem_append_left _ (ihl hn))
    · exact List.mem_cons_of_mem _ (List.mem_append_right _ (ihr hn))

section

variable [Numeral α]

/-- The tokens stand one after the other, and none of them is empty. -/
structure InOrder (ts : List Token) : Prop where
  pairwise : ts.Pairwise fun t u => t.span.stop ≤ u.span.start
  proper : ∀ t ∈ ts, t.span.start < t.span.stop

theorem InOrder.meaningful (text : String) : InOrder (meaningful text) where
  pairwise := (Token.scan_covers text).pairwise.filter _
  proper _ ht := ((Token.scan_covers text).of_mem (List.mem_of_mem_filter ht)).2.1

/-- A token before a place stands before one after it. -/
theorem InOrder.across {c : Cursor} (h : InOrder c.tokens) {t u : Token} (ht : t ∈ c.passed)
    (hu : u ∈ c.ahead) : t.span.stop ≤ u.span.start :=
  (List.pairwise_append.1 h.pairwise).2.2 t (List.mem_reverse.2 ht) u hu

/-- What is derived between two places stands after the tokens before the first place, and before
those after the second. -/
theorem Derives.span_between {cat : Category} {c c' : Cursor} {e : Expr α}
    (h : Derives cat c e c') (hc : InOrder c.tokens) :
    (∀ t ∈ c.passed, t.span.stop ≤ e.span.start) ∧
      ∀ t ∈ c'.ahead, e.span.stop ≤ t.span.start := by
  obtain ⟨t, ts, u, us, hfirst, hlast, hspan⟩ := h.span_eq
  have hc' : InOrder c'.tokens := by rwa [h.tokens_eq]
  rw [hspan]
  constructor
  · intro v hv
    exact hc.across hv (by rw [hfirst]; exact List.mem_cons_self)
  · intro v hv
    exact hc'.across (by rw [hlast]; exact List.mem_cons_self) hv

/-- Two operands that are derived one after the other are joined in their place. -/
theorem Derives.placed_join {cat cat' : Category} {c m m' c' : Cursor} {left right : Expr α}
    (hleft : Derives cat c left m) (hright : Derives cat' m' right c') (hc : InOrder c.tokens)
    (hbetween : ∃ skipped, m.ahead = skipped ++ m'.ahead) (hl : left.Placed) (hr : right.Placed)
    (joiner : Joiner) (written : Span) : (join joiner written left right).Placed := by
  obtain ⟨skipped, hskipped⟩ := hbetween
  obtain ⟨v, vs, _, _, hfirst, -, hspan⟩ := hright.span_eq
  refine ⟨Nat.le_refl _, ?_, Nat.le_refl _, hl, hr⟩
  rw [hspan]
  refine (hleft.span_between hc).2 v ?_
  rw [hskipped, hfirst]
  exact List.mem_append_right _ List.mem_cons_self

/-- What is derived from tokens in order is in its place. -/
theorem Derives.placed {cat : Category} {c c' : Cursor} {e : Expr α} (h : Derives cat c e c')
    (hc : InOrder c.tokens) : e.Placed := by
  induction h with
  | @number passed ahead t hkind | @symbol passed ahead t hkind hname hnext =>
    exact hc.proper t (by simp [Cursor.tokens])
  | @paren passed ahead passed' ahead' opening closing e hopening hclosing he ih =>
    have hinside : InOrder (Cursor.tokens ⟨opening :: passed, ahead⟩) := by
      simpa [Cursor.tokens] using hc
    obtain ⟨hbefore, hafter⟩ := he.span_between hinside
    have hproper := hc.proper opening (by simp [Cursor.tokens])
    have hclosing' := hinside.proper closing (by rw [← he.tokens_eq]; simp [Cursor.tokens])
    have hstart := hbefore opening List.mem_cons_self
    have hstop := hafter closing List.mem_cons_self
    refine ⟨?_, ?_, ih hinside⟩
    · rw [Span.start_cover]
      omega
    · rw [Span.stop_cover]
      omega
  | @call passed ahead passed' ahead' name opening closing func e hkind hname hopening hclosing he
      ih =>
    have hinside : InOrder (Cursor.tokens ⟨opening :: name :: passed, ahead⟩) := by
      simpa [Cursor.tokens] using hc
    obtain ⟨hbefore, hafter⟩ := he.span_between hinside
    have hproper := hc.proper name (by simp [Cursor.tokens])
    have hclosing' := hinside.proper closing (by rw [← he.tokens_eq]; simp [Cursor.tokens])
    have hstart := hbefore name (by simp)
    have hstop := hafter closing List.mem_cons_self
    refine ⟨?_, ?_, ih hinside⟩
    · omega
    · rw [Span.stop_cover]
      omega
  | @negation c' passed ahead t e hkind he ih =>
    have hinside : InOrder (Cursor.tokens ⟨t :: passed, ahead⟩) := by
      simpa [Cursor.tokens] using hc
    have hproper := hc.proper t (by simp [Cursor.tokens])
    have hstart := (he.span_between hinside).1 t List.mem_cons_self
    refine ⟨?_, Nat.le_refl _, ih hinside⟩
    rw [Span.start_cover]
    omega
  | atom _ ih | unsigned _ ih | factor _ ih | term _ ih => exact ih hc
  | power hleft _ hright ihl ihr | product hleft _ _ hright ihl ihr
      | sum hleft _ _ hright ihl ihr =>
    have hmiddle : InOrder _ := hleft.tokens_eq ▸ hc
    exact hleft.placed_join hright hc ⟨[_], rfl⟩ (ihl hc)
      (ihr (by simpa [Cursor.tokens] using hmiddle)) _ _
  | juxtaposed hleft _ _ hright ihl ihr =>
    have hmiddle : InOrder _ := hleft.tokens_eq ▸ hc
    exact hleft.placed_join hright hc ⟨[], rfl⟩ (ihl hc) (ihr hmiddle) _ _

/-- What is read stands in its place. -/
theorem placed_of_ofText [Scalar α] {text : String} {e : Expr α} (h : ofText text = .ok e) :
    e.Placed := by
  obtain ⟨hspells, -⟩ := spells_of_ofText h
  exact hspells.placed (.meaningful text)

end

/-! ## The search -/

variable [Scalar α]

/-- The expression is a zero, written in the span and possibly in parentheses. -/
inductive WritesZero : Expr α → Span → Prop
  | number {value : α} {s : Span} (hzero : (value == 0) = true) : WritesZero (number value s) s
  | paren {inner : Expr α} {zero s : Span} (h : WritesZero inner zero) :
      WritesZero (paren inner s) zero

/-- Somewhere in the expression, `dividend` is divided by a zero that is written in the span. -/
def ZeroDivision (e dividend : Expr α) (zero : Span) : Prop :=
  ∃ op divisor span, binary op dividend divisor span ∈ e.nodes ∧ op.op = .divide ∧
    divisor.WritesZero zero

theorem writesZero_iff {e : Expr α} {zero : Span} :
    e.WritesZero zero ↔ e.innermost.isZero = true ∧ e.innermost.span = zero := by
  constructor
  · intro h
    induction h with
    | number hzero => exact ⟨hzero, rfl⟩
    | paren _ ih => exact ih
  · induction e with
    | number value s =>
      rintro ⟨hzero, rfl⟩
      exact .number hzero
    | paren inner s ih =>
      intro h
      exact .paren (ih h)
    | symbol name s | call func name nameSpan arg parens ih | negation sign operand s ih
      | binary op left right s ihl ihr =>
      rintro ⟨⟨⟩, -⟩

/-- A zero stands inside of its parentheses, and nothing is divided there. -/
theorem WritesZero.inside {e : Expr α} {zero : Span} (h : e.WritesZero zero) (he : e.Placed) :
    e.span.start ≤ zero.start ∧ zero.start < zero.stop ∧ zero.stop ≤ e.span.stop := by
  induction h with
  | number hzero => exact ⟨Nat.le_refl _, he, Nat.le_refl _⟩
  | paren _ ih =>
    obtain ⟨hstart, hstop, hinner⟩ := he
    obtain ⟨hfirst, hlt, hlast⟩ := ih hinner
    exact ⟨hstart.trans hfirst, hlt, hlast.trans hstop⟩

theorem WritesZero.not_zeroDivision {e : Expr α} {zero : Span} (h : e.WritesZero zero)
    (dividend : Expr α) (other : Span) : ¬ e.ZeroDivision dividend other := by
  induction h with
  | number hzero =>
    rintro ⟨op, divisor, span, hn, -⟩
    cases List.mem_singleton.1 hn
  | paren _ ih =>
    rintro ⟨op, divisor, span, hn, hdivides⟩
    rcases List.mem_cons.1 hn with heq | hn
    · cases heq
    · exact ih ⟨op, divisor, span, hn, hdivides⟩

section

variable {e inner left right dividend : Expr α} {op : Operator} {s zero : Span}

theorem not_zeroDivision_number (value : α) :
    ¬ (number value s).ZeroDivision dividend zero := by
  rintro ⟨op, divisor, span, hn, -⟩
  cases List.mem_singleton.1 hn

theorem not_zeroDivision_symbol (name : String) :
    ¬ (symbol name s : Expr α).ZeroDivision dividend zero := by
  rintro ⟨op, divisor, span, hn, -⟩
  cases List.mem_singleton.1 hn

theorem zeroDivision_paren :
    (paren inner s).ZeroDivision dividend zero ↔ inner.ZeroDivision dividend zero := by
  simp [ZeroDivision, nodes]

theorem zeroDivision_call {func : Func} {name : String} {nameSpan : Span} :
    (call func name nameSpan inner s).ZeroDivision dividend zero ↔
      inner.ZeroDivision dividend zero := by
  simp [ZeroDivision, nodes]

theorem zeroDivision_negation {sign : Span} :
    (negation sign inner s).ZeroDivision dividend zero ↔ inner.ZeroDivision dividend zero := by
  simp [ZeroDivision, nodes]

/-- Of two operands, the left one is divided by the right one, or one of them holds the division. -/
theorem zeroDivision_binary :
    (binary op left right s).ZeroDivision dividend zero ↔
      (op.op = .divide ∧ right.WritesZero zero ∧ dividend = left) ∨
        left.ZeroDivision dividend zero ∨ right.ZeroDivision dividend zero := by
  unfold ZeroDivision
  simp only [nodes, List.mem_cons, List.mem_append]
  constructor
  · rintro ⟨op', divisor, span, heq | hn | hn, hop, hzero⟩
    · cases heq
      exact .inl ⟨hop, hzero, rfl⟩
    · exact .inr (.inl ⟨op', divisor, span, hn, hop, hzero⟩)
    · exact .inr (.inr ⟨op', divisor, span, hn, hop, hzero⟩)
  · rintro (⟨hop, hzero, rfl⟩ | ⟨op', divisor, span, hn, hop, hzero⟩ |
      ⟨op', divisor, span, hn, hop, hzero⟩)
    · exact ⟨op, right, s, .inl rfl, hop, hzero⟩
    · exact ⟨op', divisor, span, .inr (.inl hn), hop, hzero⟩
    · exact ⟨op', divisor, span, .inr (.inr hn), hop, hzero⟩

/-- A division stands inside of the expression that holds it, and the zero after what is divided. -/
theorem ZeroDivision.inside (h : e.ZeroDivision dividend zero) (he : e.Placed) :
    e.span.start ≤ dividend.span.start ∧ dividend.Placed ∧ dividend.span.stop ≤ zero.start ∧
      zero.start < zero.stop ∧ zero.stop ≤ e.span.stop := by
  obtain ⟨op, divisor, span, hn, -, hzero⟩ := h
  obtain ⟨hstart, hstop, hfirst, hbetween, hlast, hdividend, hdivisor⟩ := he.of_mem_nodes hn
  obtain ⟨hle, hlt, hend⟩ := hzero.inside hdivisor
  exact ⟨hstart.trans hfirst, hdividend, hbetween.trans hle, hlt,
    (hend.trans hlast).trans hstop⟩

/-- What is divided in a dividend is divided in the expression. -/
theorem ZeroDivision.of_dividend {other : Expr α} {earlier : Span}
    (h : e.ZeroDivision dividend zero) (hother : dividend.ZeroDivision other earlier) :
    e.ZeroDivision other earlier := by
  obtain ⟨op, divisor, span, hn, -⟩ := h
  obtain ⟨op', divisor', span', hn', hdivides⟩ := hother
  have hquotient : binary op' other divisor' span' ∈ (binary op dividend divisor span).nodes :=
    List.mem_cons_of_mem _ (List.mem_append_left _ hn')
  exact ⟨op', divisor', span', mem_nodes_trans hquotient hn, hdivides⟩

/-- The test of the search at a quotient. -/
theorem divides_iff :
    (op.op == .divide && right.innermost.isZero) = true ↔
      op.op = .divide ∧ ∃ zero, right.WritesZero zero := by
  rw [Bool.and_eq_true, beq_iff_eq]
  refine and_congr_right fun _ => ?_
  constructor
  · intro h
    exact ⟨_, writesZero_iff.2 ⟨h, rfl⟩⟩
  · rintro ⟨zero, h⟩
    exact (writesZero_iff.1 h).1

end

/-- Nothing is found if and only if there is nothing to be found. -/
theorem zeroDivisor?_eq_none_iff {e : Expr α} :
    e.zeroDivisor? = none ↔ ∀ dividend zero, ¬ e.ZeroDivision dividend zero := by
  induction e with
  | number value s => exact iff_of_true rfl fun _ _ => not_zeroDivision_number value
  | symbol name s => exact iff_of_true rfl fun _ _ => not_zeroDivision_symbol name
  | paren inner s ih =>
    simp only [zeroDivision_paren]
    exact ih
  | call func name nameSpan arg parens ih =>
    simp only [zeroDivision_call]
    exact ih
  | negation sign operand s ih =>
    simp only [zeroDivision_negation]
    exact ih
  | binary op left right s ihl ihr =>
    rw [zeroDivisor?]
    split
    · next htest =>
      obtain ⟨hop, zero, hzero⟩ := divides_iff.1 htest
      refine iff_of_false (by simp) ?_
      intro h
      exact h left zero (zeroDivision_binary.2 (.inl ⟨hop, hzero, rfl⟩))
    · next htest =>
      have hhere : ∀ zero, ¬ (op.op = .divide ∧ right.WritesZero zero) := fun zero h =>
        htest (divides_iff.2 ⟨h.1, zero, h.2⟩)
      rw [Option.or_eq_none_iff, ihl, ihr]
      constructor
      · rintro ⟨hl, hr⟩ dividend zero h
        rcases zeroDivision_binary.1 h with ⟨hop, hzero, -⟩ | h | h
        · exact hhere zero ⟨hop, hzero⟩
        · exact hl dividend zero h
        · exact hr dividend zero h
      · intro h
        exact ⟨fun dividend zero hl => h dividend zero (zeroDivision_binary.2 (.inr (.inl hl))),
          fun dividend zero hr => h dividend zero (zeroDivision_binary.2 (.inr (.inr hr)))⟩

/-- What is found is a division, and one whose zero is written earlier is part of its dividend. -/
theorem exists_of_zeroDivisor?_eq_some {e : Expr α} (he : e.Placed) {zero : Span}
    (h : e.zeroDivisor? = some zero) :
    ∃ dividend, e.ZeroDivision dividend zero ∧ ∀ other earlier, e.ZeroDivision other earlier →
      earlier.start < zero.start → dividend.ZeroDivision other earlier := by
  induction e with
  | number value s | symbol name s => cases h
  | paren inner s ih =>
    simp only [zeroDivision_paren]
    exact ih he.2.2 h
  | call func name nameSpan arg parens ih =>
    simp only [zeroDivision_call]
    exact ih he.2.2 h
  | negation sign operand s ih =>
    simp only [zeroDivision_negation]
    exact ih he.2.2 h
  | binary op left right s ihl ihr =>
    obtain ⟨-, hbetween, -, hleft, hright⟩ := he
    rw [zeroDivisor?] at h
    split at h
    · next htest =>
      obtain ⟨hop, -⟩ := divides_iff.1 htest
      obtain ⟨-, hinnermost⟩ := Bool.and_eq_true_iff.1 htest
      have hzero : right.WritesZero zero := writesZero_iff.2 ⟨hinnermost, Option.some.inj h⟩
      refine ⟨left, zeroDivision_binary.2 (.inl ⟨hop, hzero, rfl⟩), ?_⟩
      intro other earlier hother hlt
      rcases zeroDivision_binary.1 hother with ⟨-, hsame, -⟩ | hother | hother
      · obtain rfl := (writesZero_iff.1 hsame).2.symm.trans (writesZero_iff.1 hzero).2
        exact absurd hlt (Nat.lt_irrefl _)
      · exact hother
      · exact absurd hother (hzero.not_zeroDivision other earlier)
    · next htest =>
      -- Nothing is divided here, so that a division is that of one of the operands.
      have hoperands : ∀ {other earlier}, (binary op left right s).ZeroDivision other earlier →
          left.ZeroDivision other earlier ∨ right.ZeroDivision other earlier := by
        intro other earlier hother
        rcases zeroDivision_binary.1 hother with ⟨hop, hzero, -⟩ | hother
        · exact absurd (divides_iff.2 ⟨hop, _, hzero⟩) htest
        · exact hother
      rcases Option.or_eq_some_iff.1 h with h | ⟨hnone, h⟩
      · obtain ⟨dividend, hfound, hearlier⟩ := ihl hleft h
        refine ⟨dividend, zeroDivision_binary.2 (.inr (.inl hfound)), ?_⟩
        intro other earlier hother hlt
        rcases hoperands hother with hother | hother
        · exact hearlier other earlier hother hlt
        · obtain ⟨-, -, -, hproper, hstop⟩ := hfound.inside hleft
          obtain ⟨hstart, hplaced, hafter, -, -⟩ := hother.inside hright
          have hnonempty := hplaced.start_lt
          omega
      · obtain ⟨dividend, hfound, hearlier⟩ := ihr hright h
        refine ⟨dividend, zeroDivision_binary.2 (.inr (.inr hfound)), ?_⟩
        intro other earlier hother hlt
        rcases hoperands hother with hother | hother
        · exact absurd hother (zeroDivisor?_eq_none_iff.1 hnone other earlier)
        · exact hearlier other earlier hother hlt

/-- Something is found in what was read if and only if something is divided by a written zero. The
zeros that are written before the one that is found are those in what it divides, and so it is the
first of all if and only if nothing is found there. -/
theorem zeroDivisor?_first_iff [Numeral α] {text : String} {e : Expr α}
    (h : ofText text = .ok e) :
    (e.zeroDivisor?.isSome ↔ ∃ dividend zero, e.ZeroDivision dividend zero) ∧
      ∀ zero, e.zeroDivisor? = some zero → ∃ dividend, e.ZeroDivision dividend zero ∧
        (∀ other earlier, e.ZeroDivision other earlier ∧ earlier.start < zero.start ↔
          dividend.ZeroDivision other earlier) ∧
        ((∀ other later, e.ZeroDivision other later → zero.start ≤ later.start) ↔
          dividend.zeroDivisor? = none) := by
  have he := placed_of_ofText h
  constructor
  · rw [Option.isSome_iff_ne_none, Ne, zeroDivisor?_eq_none_iff]
    push Not
    rfl
  · intro zero hzero
    obtain ⟨dividend, hfound, hearlier⟩ := exists_of_zeroDivisor?_eq_some he hzero
    have hiff : ∀ other earlier, e.ZeroDivision other earlier ∧ earlier.start < zero.start ↔
        dividend.ZeroDivision other earlier := by
      intro other earlier
      constructor
      · rintro ⟨hother, hlt⟩
        exact hearlier other earlier hother hlt
      · intro hother
        obtain ⟨-, hdividend, hafter, -, -⟩ := hfound.inside he
        obtain ⟨-, -, -, hproper, hstop⟩ := hother.inside hdividend
        exact ⟨hfound.of_dividend hother, by omega⟩
    refine ⟨dividend, hfound, hiff, ?_⟩
    rw [zeroDivisor?_eq_none_iff]
    constructor
    · intro hfirst other earlier hother
      obtain ⟨hin, hlt⟩ := (hiff other earlier).2 hother
      exact absurd (hfirst other earlier hin) (Nat.not_le.2 hlt)
    · intro hnone other later hlater
      by_contra hlt
      exact hnone other later ((hiff other later).1 ⟨hlater, Nat.not_le.1 hlt⟩)

/-- The zero in parentheses is found, and it is the first of the two that are written. -/
theorem zeroDivisor?_first_iff_parentheses :
    let inner : Expr Float := .binary ⟨.divide, false, ⟨4, 5⟩⟩ (.symbol "y" ⟨3, 4⟩)
      (.paren (.number 0 ⟨6, 7⟩) ⟨5, 8⟩) ⟨3, 8⟩
    let left : Expr Float := .binary ⟨.power, false, ⟨1, 2⟩⟩ (.symbol "x" ⟨0, 1⟩)
      (.paren inner ⟨2, 9⟩) ⟨0, 9⟩
    let right : Expr Float := .binary ⟨.divide, false, ⟨13, 14⟩⟩ (.number 2 ⟨12, 13⟩)
      (.number 0 ⟨14, 15⟩) ⟨12, 15⟩
    let e : Expr Float := .binary ⟨.plus, false, ⟨10, 11⟩⟩ left right ⟨0, 15⟩
    ofText "x^(y/(0)) + 2/0" = .ok e ∧ e.zeroDivisor? = some ⟨6, 7⟩ ∧
      (∃ dividend, e.ZeroDivision dividend ⟨6, 7⟩) ∧
      ∀ other later, e.ZeroDivision other later → 6 ≤ later.start := by
  intro inner left right e
  have hok : ofText "x^(y/(0)) + 2/0" = .ok e := by decide +kernel
  have hfound : e.zeroDivisor? = some ⟨6, 7⟩ := by decide +kernel
  obtain ⟨dividend, hdivision, -, hfirst⟩ := (zeroDivisor?_first_iff hok).2 _ hfound
  have hdividend : (number (0 : Float) ⟨6, 7⟩).isZero = true ∧ dividend = .symbol "y" ⟨3, 4⟩ := by
    simpa [e, left, inner, right, zeroDivision_binary, zeroDivision_paren,
      not_zeroDivision_symbol, not_zeroDivision_number, writesZero_iff, innermost, span]
      using hdivision
  exact ⟨hok, hfound, ⟨dividend, hdivision⟩, hfirst.2 (hdividend.2 ▸ rfl)⟩

/-- In a chain of quotients the last zero is found, although another one is written earlier. -/
theorem zeroDivisor?_not_first :
    let inner : Expr Float := .binary ⟨.divide, false, ⟨1, 2⟩⟩ (.symbol "x" ⟨0, 1⟩)
      (.number 0 ⟨2, 3⟩) ⟨0, 3⟩
    let e : Expr Float := .binary ⟨.divide, false, ⟨3, 4⟩⟩ inner (.number 0 ⟨4, 5⟩) ⟨0, 5⟩
    ofText "x/0/0" = .ok e ∧ e.zeroDivisor? = some ⟨4, 5⟩ ∧
      e.ZeroDivision (.symbol "x" ⟨0, 1⟩) ⟨2, 3⟩ := by
  intro inner e
  have hok : ofText "x/0/0" = .ok e := by decide +kernel
  have hzero : ((0 : Float) == 0) = true := by decide
  have hinner : inner ∈ e.nodes := List.mem_cons_of_mem _ List.mem_cons_self
  exact ⟨hok, rfl, _, _, _, hinner, rfl, .number hzero⟩

end Fluxion.Expr
