import Fluxion.Expr.Reading
import Fluxion.Proofs.Cursor.Significant

/-!
# The grammar of expressions

    sum     ::= product (('+' | '-') product)*
    product ::= signed (('*' | '/') signed | power)*
    signed  ::= '-' signed | power
    power   ::= atom ('^' signed)?
    atom    ::= number | name | function '(' sum ')' | '(' sum ')'

A `power` stands in a product without an operator only between a number or a closing parenthesis and
a name or an opening parenthesis. A derivation goes from one place among the significant tokens to a
later one, takes every token between them once and in order, and builds the tree.
-/

namespace Fluxion.Expr

variable {α : Type}

/-- Whether every number of the expression is finite. -/
def Proper [Scalar α] : Expr α → Prop
  | number value _ => Scalar.isFinite value = true
  | symbol _ _ => True
  | paren inner _ => inner.Proper
  | call _ _ _ arg _ => arg.Proper
  | negation _ operand _ => operand.Proper
  | binary _ left right _ => left.Proper ∧ right.Proper

/-- The categories of the grammar, from the loosest to the tightest. -/
inductive Category where
  | sum
  | product
  | signed
  | power
  | atom
  deriving DecidableEq

/-- The grammar: `Derives cat c e c'` if the tokens from `c` to `c'` form `e` as a `cat`. -/
inductive Derives [Numeral α] : Category → Cursor → Expr α → Cursor → Prop
  | number {passed ahead : List Token} {t : Token} (hkind : t.kind = .int ∨ t.kind = .decimal) :
      Derives .atom ⟨passed, t :: ahead⟩ (.number (Numeral.ofChars t.lexeme.toList) t.span)
        ⟨t :: passed, ahead⟩
  | symbol {passed ahead : List Token} {t : Token} (hkind : t.kind = .name)
      (hname : Func.ofName? t.lexeme = none) (hnext : ∀ u ∈ ahead.head?, u.kind ≠ .opening) :
      Derives .atom ⟨passed, t :: ahead⟩ (.symbol t.lexeme t.span) ⟨t :: passed, ahead⟩
  | paren {passed ahead passed' ahead' : List Token} {opening closing : Token} {e : Expr α}
      (hopening : opening.kind = .opening) (hclosing : closing.kind = .closing)
      (he : Derives .sum ⟨opening :: passed, ahead⟩ e ⟨passed', closing :: ahead'⟩) :
      Derives .atom ⟨passed, opening :: ahead⟩ (.paren e (opening.span.cover closing.span))
        ⟨closing :: passed', ahead'⟩
  | call {passed ahead passed' ahead' : List Token} {name opening closing : Token} {func : Func}
      {e : Expr α} (hkind : name.kind = .name) (hname : Func.ofName? name.lexeme = some func)
      (hopening : opening.kind = .opening) (hclosing : closing.kind = .closing)
      (he : Derives .sum ⟨opening :: name :: passed, ahead⟩ e ⟨passed', closing :: ahead'⟩) :
      Derives .atom ⟨passed, name :: opening :: ahead⟩
        (.call func name.lexeme name.span e (opening.span.cover closing.span))
        ⟨closing :: passed', ahead'⟩
  | atom {c c' : Cursor} {e : Expr α} (he : Derives .atom c e c') : Derives .power c e c'
  | power {c c' : Cursor} {passed ahead : List Token} {t : Token} {base exponent : Expr α}
      (hbase : Derives .atom c base ⟨passed, t :: ahead⟩) (hkind : t.kind = .power)
      (hexponent : Derives .signed ⟨t :: passed, ahead⟩ exponent c') :
      Derives .power c (join (.written .power) t.span base exponent) c'
  | unsigned {c c' : Cursor} {e : Expr α} (he : Derives .power c e c') : Derives .signed c e c'
  | negation {c' : Cursor} {passed ahead : List Token} {t : Token} {e : Expr α}
      (hkind : t.kind = .minus) (he : Derives .signed ⟨t :: passed, ahead⟩ e c') :
      Derives .signed ⟨passed, t :: ahead⟩ (.negation t.span e (t.span.cover e.span)) c'
  | factor {c c' : Cursor} {e : Expr α} (he : Derives .signed c e c') : Derives .product c e c'
  | product {c c' : Cursor} {passed ahead : List Token} {t : Token} {op : BinaryOp}
      {left right : Expr α} (hleft : Derives .product c left ⟨passed, t :: ahead⟩)
      (hkind : BinaryOp.ofToken? t.kind = some op) (hop : op = .times ∨ op = .divide)
      (hright : Derives .signed ⟨t :: passed, ahead⟩ right c') :
      Derives .product c (join (.written op) t.span left right) c'
  | juxtaposed {c c' : Cursor} {passed ahead : List Token} {t u : Token} {left right : Expr α}
      (hleft : Derives .product c left ⟨t :: passed, u :: ahead⟩)
      (hbefore : t.kind = .int ∨ t.kind = .decimal ∨ t.kind = .closing)
      (hafter : u.kind = .name ∨ u.kind = .opening)
      (hright : Derives .power ⟨t :: passed, u :: ahead⟩ right c') :
      Derives .product c (join .juxtaposed default left right) c'
  | term {c c' : Cursor} {e : Expr α} (he : Derives .product c e c') : Derives .sum c e c'
  | sum {c c' : Cursor} {passed ahead : List Token} {t : Token} {op : BinaryOp}
      {left right : Expr α} (hleft : Derives .sum c left ⟨passed, t :: ahead⟩)
      (hkind : BinaryOp.ofToken? t.kind = some op) (hop : op = .plus ∨ op = .minus)
      (hright : Derives .product ⟨t :: passed, ahead⟩ right c') :
      Derives .sum c (join (.written op) t.span left right) c'

/-- The tokens of a text that carry meaning. -/
def meaningful (text : String) : List Token := (Token.scan text).filter Token.isSignificant

/-- The text is an expression: its significant tokens, from the first to the last, form `e`. -/
def Spells [Numeral α] (text : String) (e : Expr α) : Prop :=
  Derives .sum ⟨[], meaningful text⟩ e ⟨(meaningful text).reverse, []⟩

namespace Derives

variable [Numeral α] {cat : Category} {c c' : Cursor} {e : Expr α}

/-- A derivation moves tokens from ahead of the place to before it, at least one of them. -/
theorem consumes (h : Derives cat c e c') :
    ∃ t taken, c.ahead = t :: taken ++ c'.ahead ∧ c'.passed = (t :: taken).reverse ++ c.passed := by
  induction h with
  | @number _ _ t => exact ⟨t, [], rfl, rfl⟩
  | @symbol _ _ t => exact ⟨t, [], rfl, rfl⟩
  | @paren _ _ _ _ opening closing _ _ _ _ ih =>
    obtain ⟨t, taken, hahead, hpassed⟩ := ih
    exact ⟨opening, t :: taken ++ [closing], by simp_all, by simp_all⟩
  | @call _ _ _ _ name opening closing _ _ _ _ _ _ _ ih =>
    obtain ⟨t, taken, hahead, hpassed⟩ := ih
    exact ⟨name, opening :: t :: taken ++ [closing], by simp_all, by simp_all⟩
  | atom _ ih => exact ih
  | @power _ _ _ _ sep _ _ _ _ _ ihl ihr =>
    obtain ⟨t, taken, hahead, hpassed⟩ := ihl
    obtain ⟨u, taken', hahead', hpassed'⟩ := ihr
    exact ⟨t, taken ++ sep :: u :: taken', by simp_all, by simp_all⟩
  | unsigned _ ih => exact ih
  | @negation _ _ _ sign _ _ _ ih =>
    obtain ⟨t, taken, hahead, hpassed⟩ := ih
    exact ⟨sign, t :: taken, by simp_all, by simp_all⟩
  | factor _ ih => exact ih
  | @product _ _ _ _ sep _ _ _ _ _ _ _ ihl ihr =>
    obtain ⟨t, taken, hahead, hpassed⟩ := ihl
    obtain ⟨u, taken', hahead', hpassed'⟩ := ihr
    exact ⟨t, taken ++ sep :: u :: taken', by simp_all, by simp_all⟩
  | juxtaposed _ _ _ _ ihl ihr =>
    obtain ⟨t, taken, hahead, hpassed⟩ := ihl
    obtain ⟨u, taken', hahead', hpassed'⟩ := ihr
    exact ⟨t, taken ++ u :: taken', by simp_all, by simp_all⟩
  | term _ ih => exact ih
  | @sum _ _ _ _ sep _ _ _ _ _ _ _ ihl ihr =>
    obtain ⟨t, taken, hahead, hpassed⟩ := ihl
    obtain ⟨u, taken', hahead', hpassed'⟩ := ihr
    exact ⟨t, taken ++ sep :: u :: taken', by simp_all, by simp_all⟩

/-- No token is lost or read twice. -/
theorem tokens_eq (h : Derives cat c e c') : c'.tokens = c.tokens := by
  obtain ⟨t, taken, hahead, hpassed⟩ := h.consumes
  rw [Cursor.tokens, Cursor.tokens, hahead, hpassed]
  simp

theorem length_lt (h : Derives cat c e c') : c'.ahead.length < c.ahead.length := by
  obtain ⟨t, taken, hahead, -⟩ := h.consumes
  rw [hahead, List.length_append, List.length_cons]
  omega

/-- If nothing is left, all of the tokens were taken. -/
theorem spells {text : String} {passed : List Token}
    (h : Derives .sum ⟨[], meaningful text⟩ e ⟨passed, []⟩) : Spells text e := by
  have htokens := h.tokens_eq
  rw [Cursor.tokens, Cursor.tokens, List.append_nil, List.reverse_nil, List.nil_append,
    List.reverse_eq_iff] at htokens
  dsimp only at htokens
  rw [htokens] at h
  exact h

/-- Nothing starts with a closing parenthesis. -/
theorem start (h : Derives cat c e c') : ∃ t rest, c.ahead = t :: rest ∧ t.kind ≠ .closing := by
  induction h with
  | number hkind =>
    refine ⟨_, _, rfl, ?_⟩
    rcases hkind with hkind | hkind <;> rw [hkind] <;> decide
  | symbol hkind _ _ => exact ⟨_, _, rfl, by rw [hkind]; decide⟩
  | paren hopening _ _ _ => exact ⟨_, _, rfl, by rw [hopening]; decide⟩
  | call hkind _ _ _ _ _ => exact ⟨_, _, rfl, by rw [hkind]; decide⟩
  | negation hkind _ _ => exact ⟨_, _, rfl, by rw [hkind]; decide⟩
  | atom _ ih => exact ih
  | unsigned _ ih => exact ih
  | factor _ ih => exact ih
  | term _ ih => exact ih
  | power _ _ _ ih _ => exact ih
  | product _ _ _ _ ih _ => exact ih
  | juxtaposed _ _ _ _ ih _ => exact ih
  | sum _ _ _ _ ih _ => exact ih

/-- A power starts like an operand, without a sign. -/
theorem start_operand (h : Derives cat c e c') (hcat : cat = .power ∨ cat = .atom) :
    ∃ t rest, c.ahead = t :: rest ∧ t.kind ∈ operandStart := by
  induction h with
  | number hkind =>
    refine ⟨_, _, rfl, ?_⟩
    rcases hkind with hkind | hkind <;> rw [hkind] <;> decide
  | symbol hkind _ _ => exact ⟨_, _, rfl, by rw [hkind]; decide⟩
  | paren hopening _ _ _ => exact ⟨_, _, rfl, by rw [hopening]; decide⟩
  | call hkind _ _ _ _ _ => exact ⟨_, _, rfl, by rw [hkind]; decide⟩
  | atom _ ih => exact ih (.inr rfl)
  | power _ _ _ ih _ => exact ih (.inr rfl)
  | unsigned _ _ => rcases hcat with hcat | hcat <;> cases hcat
  | negation _ _ _ => rcases hcat with hcat | hcat <;> cases hcat
  | factor _ _ => rcases hcat with hcat | hcat <;> cases hcat
  | product _ _ _ _ _ _ => rcases hcat with hcat | hcat <;> cases hcat
  | juxtaposed _ _ _ _ _ _ => rcases hcat with hcat | hcat <;> cases hcat
  | term _ _ => rcases hcat with hcat | hcat <;> cases hcat
  | sum _ _ _ _ _ _ => rcases hcat with hcat | hcat <;> cases hcat

end Derives

end Fluxion.Expr
