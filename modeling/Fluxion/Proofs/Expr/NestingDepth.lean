import Fluxion.Proofs.Expr.NestingLimit
import Fluxion.Proofs.Term.Printed

/-!
# Nested parts and the limit

How deep an expression is nested is a matter of what its parts lie inside of: parentheses, calls,
signs, and right operands of powers. The levels that are entered to read it are others. The whole
expression takes a level of its own, a call takes two, and operators that are applied before the one
in front of them take one together. So not every expression is read that is nested no deeper than
there are levels. A third of them is what can be counted on.
-/

namespace Fluxion.Expr

variable {α : Type}

/-- The most parentheses, calls and signs that any token of the expression lies inside of, where a
right operand of a power counts for `power` of them. -/
def enclosure (power : Nat) : Expr α → Nat
  | number _ _ | symbol _ _ => 0
  | paren inner _ => 1 + inner.enclosure power
  | call _ _ _ arg _ => 1 + arg.enclosure power
  | negation _ operand _ => 1 + operand.enclosure power
  | binary op left right _ =>
    max (left.enclosure power)
      (if op.op = .power then power + right.enclosure power else right.enclosure power)

/-- How deep the expression is nested: the most parentheses, calls, signs and right operands of
powers that any of its tokens lies inside of. -/
def nesting (e : Expr α) : Nat := e.enclosure 1

theorem nesting_join_power (written : Span) (left right : Expr α) :
    (join (.written .power) written left right).nesting =
      max left.nesting (1 + right.nesting) := rfl

theorem nesting_join {joiner : Joiner} (h : joiner.op ≠ .power) (written : Span)
    (left right : Expr α) :
    (join joiner written left right).nesting = max left.nesting right.nesting := by
  cases joiner with
  | written op => exact congrArg (max left.nesting) (if_neg h)
  | juxtaposed => rfl

/-! ## Levels that are entered at least -/

/-- Each of the parentheses, calls and signs takes a level. -/
theorem enclosure_le_body (e : Expr α) : e.enclosure 0 ≤ e.body := by
  induction e with
  | number _ _ | symbol _ _ => exact Nat.zero_le _
  | paren inner span ih =>
    rw [body, lead_paren, need, enclosure]
    omega
  | call func name nameSpan arg parens ih =>
    rw [body, lead_call, need, enclosure]
    omega
  | negation sign operand span ih =>
    rw [body, lead_negation, enclosure]
    omega
  | binary op left right span ihl ihr =>
    have hright := Nat.le_trans ihr right.body_le_afterOperator
    have hneed := need_binary op left right span
    rw [need, need] at hneed
    rw [enclosure, Nat.zero_add, ite_self]
    omega

/-! ## Levels that are entered at most -/

/-- The levels that are entered at most to extend an operand of a category where an operator stands
before it, if it is nested `n` deep. -/
def Category.reach : Category → Nat → Nat
  | .atom, _ => 0
  | .power, n | .signed, n => 3 * n
  | .product, n => 3 * n + 1
  | .sum, n => 3 * n + 2

/-- What extends an operand by one more operator is what is read after that operator. -/
theorem raised_join_le (joiner : Joiner) (written : Span) {left right : Expr α} {room : Nat}
    (hleft : left.raised ≤ room + 1) (hright : right.afterOperator ≤ room) :
    (join joiner written left right).raised ≤ room + 1 := by
  have hextent : (join joiner written left right).extent =
      max left.extent right.afterOperator := rfl
  have hle := extent_le_of_raised_le hleft
  rw [raised_of_isJoined rfl, hextent]
  omega

/-- An operator other than a power takes nothing besides what its operands take. -/
theorem levels_join_le {joiner : Joiner} (h : joiner.op ≠ .power) (written : Span) (room : Nat)
    {left right : Expr α}
    (hleft : left.lead ≤ 3 * left.nesting ∧ left.raised ≤ 3 * left.nesting + room + 1)
    (hright : right.lead ≤ 3 * right.nesting ∧ right.raised ≤ 3 * right.nesting + room) :
    (join joiner written left right).lead ≤ 3 * (join joiner written left right).nesting ∧
      (join joiner written left right).raised ≤
        3 * (join joiner written left right).nesting + room + 1 := by
  have hlead : (join joiner written left right).lead = left.lead := rfl
  rw [nesting_join h, hlead]
  refine ⟨by omega, raised_join_le joiner written (by omega) (Nat.max_le.2 ⟨by omega, by omega⟩)⟩

theorem body_le {e : Expr α} {room : Nat} (hlead : e.lead ≤ room) (hraised : e.raised ≤ room + 1) :
    e.body ≤ room :=
  Nat.max_le.2 ⟨hlead, extent_le_of_raised_le hraised⟩

/-- An expression takes at most three levels for each one that it is nested: two for a call, and one
for the operators before it that are applied first. Further levels are only taken by operators that
are applied before the one in front of them, and between a plus and a power there is no more than
one precedence. -/
theorem Derives.levels_le [Numeral α] {cat : Category} {c c' : Cursor} {e : Expr α}
    (h : Derives cat c e c') :
    e.lead ≤ 3 * e.nesting ∧ e.raised ≤ cat.reach e.nesting := by
  induction h with
  | number _ | symbol _ _ _ => exact ⟨Nat.zero_le _, Nat.zero_le _⟩
  | @paren _ _ _ _ opening closing e _ _ _ ih =>
    have hbody := body_le (Nat.le_succ_of_le ih.1) ih.2
    have hnesting : (Expr.paren e (opening.span.cover closing.span)).nesting = 1 + e.nesting := rfl
    rw [lead_paren, need, hnesting]
    exact ⟨by omega, Nat.zero_le _⟩
  | @call _ _ _ _ name opening closing func e _ _ _ _ _ ih =>
    have hbody := body_le (Nat.le_succ_of_le ih.1) ih.2
    have hnesting : (Expr.call func name.lexeme name.span e
        (opening.span.cover closing.span)).nesting = 1 + e.nesting := rfl
    rw [lead_call, need, hnesting]
    exact ⟨by omega, Nat.zero_le _⟩
  | @negation _ _ _ t e _ _ ih =>
    have hbody := body_le ih.1 (Nat.le_succ_of_le ih.2)
    have hnesting : (Expr.negation t.span e (t.span.cover e.span)).nesting = 1 + e.nesting := rfl
    rw [lead_negation, hnesting]
    exact ⟨by omega, Nat.zero_le _⟩
  | atom _ ih => exact ⟨ih.1, Nat.le_trans ih.2 (Nat.zero_le _)⟩
  | unsigned _ ih => exact ih
  | factor _ ih | term _ ih => exact ⟨ih.1, Nat.le_succ_of_le ih.2⟩
  | @power _ _ _ _ t base exponent _ _ _ ihl ihr =>
    have hright : exponent.afterOperator ≤ 3 * exponent.nesting := Nat.max_le.2 ihr
    have hleft : base.raised ≤ 3 * exponent.nesting + 1 := Nat.le_trans ihl.2 (Nat.zero_le _)
    have hraised := raised_join_le (.written .power) t.span hleft hright
    rw [nesting_join_power, Category.reach]
    have hlead : (join (.written .power) t.span base exponent).lead = base.lead := rfl
    rw [hlead]
    omega
  | @product _ _ _ _ t op left right _ _ hop _ ihl ihr =>
    refine levels_join_le ?_ t.span 0 ihl ihr
    rcases hop with rfl | rfl <;> decide
  | juxtaposed _ _ _ _ ihl ihr => exact levels_join_le (by decide) default 0 ihl ihr
  | @sum _ _ _ _ t op left right _ _ hop _ ihl ihr =>
    refine levels_join_le ?_ t.span 1 ihl ihr
    rcases hop with rfl | rfl <;> decide

theorem need_le_of_spells [Numeral α] {text : String} {e : Expr α} (h : Spells text e) :
    e.need ≤ 2 + 3 * e.nesting := by
  obtain ⟨hlead, hraised⟩ := h.levels_le
  have hbody := body_le (Nat.le_succ_of_le hlead) hraised
  rw [need]
  omega

variable [Scalar α] [Numeral α]

/-- Of the levels that can be entered, a third can be counted on: an expression in finite numbers
that is nested no deeper than 42 is read, whatever it is nested in and whatever operators stand
between. And no expression is read in which parentheses, calls and signs alone are nested as deep as
there are levels. -/
theorem ofText_within_nesting {text : String} {e : Expr α} (h : Spells text e)
    (hproper : e.Proper) :
    (e.nesting ≤ 42 → ofText text = .ok e) ∧
      (ofText text = .ok e → e.enclosure 0 < maxNesting) := by
  have hread := ofText_iff_need_le h hproper
  constructor
  · intro hnesting
    have hneed := need_le_of_spells h
    rw [hread, maxNesting]
    omega
  · intro hok
    have hneed := hread.1 hok
    have hbody := e.enclosure_le_body
    rw [need] at hneed
    omega

/-- In `x - ln(-x^z)^y` the `z` is nested three deep: in a call, in a sign and as an exponent. -/
theorem ofText_within_nesting_logarithm :
    let arg : Expr Float := .negation ⟨7, 8⟩
      (.binary ⟨.power, false, ⟨9, 10⟩⟩ (.symbol "x" ⟨8, 9⟩) (.symbol "z" ⟨10, 11⟩) ⟨8, 11⟩) ⟨7, 11⟩
    let e : Expr Float := .binary ⟨.minus, false, ⟨2, 3⟩⟩ (.symbol "x" ⟨0, 1⟩)
      (.binary ⟨.power, false, ⟨12, 13⟩⟩ (.call .ln "ln" ⟨4, 6⟩ arg ⟨6, 12⟩) (.symbol "y" ⟨13, 14⟩)
        ⟨4, 14⟩) ⟨0, 14⟩
    Spells "x - ln(-x^z)^y" e ∧ e.Proper ∧ e.nesting = 3 ∧ e.enclosure 0 = 2 ∧
      (e.nesting ≤ 42 → ofText "x - ln(-x^z)^y" = .ok e) ∧
      (ofText "x - ln(-x^z)^y" = .ok e → e.enclosure 0 < maxNesting) := by
  intro arg e
  have hok : ofText "x - ln(-x^z)^y" = .ok e := by cbv
  obtain ⟨hspells, hproper⟩ := spells_of_ofText hok
  exact ⟨hspells, hproper, rfl, rfl, ofText_within_nesting hspells hproper⟩

/-! ## Calls inside of calls -/

/-- The text of calls of a function, each the argument of the one before it, down to a symbol. -/
def nestedCalls (f : Func) : Nat → List Char
  | 0 => ['x']
  | n + 1 => f.name.toList ++ Term.wrap (nestedCalls f n)

/-- Calls inside of calls are nested as deep as they are many, and take twice as many levels. -/
theorem derives_nestedCalls (f : Func) (n : Nat) (passed : List Token) (offset : Nat)
    {rest : List Char} (hrest : Term.Separated rest) :
    ∃ (e : Expr α) (passed' : List Token) (offset' : Nat),
      Derives .atom ⟨passed, Token.significantFrom offset (nestedCalls f n ++ rest)⟩ e
        ⟨passed', Token.significantFrom offset' rest⟩ ∧
      e.Proper ∧ e.nesting = n ∧ e.need = 1 + 2 * n := by
  induction n generalizing passed offset rest with
  | zero =>
    have hname : Token.IsName ['x'] := ⟨'x', [], rfl, rfl, fun _ hd => by cases hd⟩
    obtain ⟨t, offset', hkind, hlexeme, hscan⟩ :=
      Token.significantFrom_name hname hrest.endsWord offset
    refine ⟨.symbol t.lexeme t.span, t :: passed, offset', ?_, trivial, rfl, rfl⟩
    rw [nestedCalls, hscan]
    exact .symbol hkind (by rw [hlexeme]; decide +kernel) (hrest.notOpening offset')
  | succ n ih =>
    obtain ⟨u, opening, offset₁, hkind, hlexeme, hopening, hscan₁⟩ :=
      Term.significantFrom_call f (nestedCalls f n) rest offset
    obtain ⟨e, passed', offset₂, hderives, hproper, hnesting, hneed⟩ := ih (opening :: u :: passed)
      offset₁ (Term.separated_symbol (c := ')') rfl (by decide) rest)
    obtain ⟨closing, offset₃, hclosing, hscan₃⟩ :=
      Token.significantFrom_symbol (c := ')') rfl rest offset₂
    refine ⟨.call f u.lexeme u.span e (opening.span.cover closing.span), closing :: passed',
      offset₃, ?_, hproper, ?_, ?_⟩
    · rw [nestedCalls, hscan₁]
      rw [hscan₃] at hderives
      refine .call hkind ?_ hopening hclosing (hderives.loosen (by decide))
      rw [hlexeme, Func.ofName?_name]
    · rw [nesting, enclosure, ← nesting, hnesting, Nat.add_comm]
    · have hextent : (Expr.call f u.lexeme u.span e (opening.span.cover closing.span)).extent = 0 :=
        rfl
      rw [need, body, hextent, lead_call, hneed]
      omega

/-- Calls that are nested half as deep as there are levels are refused. -/
theorem nestedCalls_refused :
    ∃ e : Expr Float, Spells (String.ofList (nestedCalls .ln 64)) e ∧ e.Proper ∧
      e.nesting ≤ maxNesting ∧
      ∃ f, ofText (α := Float) (String.ofList (nestedCalls .ln 64)) = .error f ∧
        f.cause = .nestedTooDeeply maxNesting := by
  obtain ⟨e, passed, offset, hderives, hproper, hnesting, hneed⟩ :=
    derives_nestedCalls (α := Float) .ln 64 [] 0 Term.separated_nil
  have hspells := Term.spells_of_derives (hderives.loosen (by decide))
  refine ⟨e, hspells, hproper, by rw [hnesting]; decide, ?_⟩
  rcases ofText_gives hspells hproper with ⟨-, hfits⟩ | ⟨f, herror, ⟨hcause, -⟩, -⟩
  · rw [hneed] at hfits
    exact absurd hfits (by decide)
  · exact ⟨f, herror, hcause⟩

end Fluxion.Expr
