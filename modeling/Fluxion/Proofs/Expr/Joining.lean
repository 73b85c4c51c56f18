import Fluxion.Proofs.Expr.Grammar

/-!
# Operators and categories

What the grammar allows on both sides of a joiner and what the joined operands form, and how the
precedences of the reader and the categories of the grammar correspond.
-/

namespace Fluxion

namespace Cursor

/-- What joins the operand before a place among the significant tokens to the next one: an operator
that is written there, or nothing between a number or a closing parenthesis and a name or an opening
parenthesis. -/
def Joins (c : Cursor) : Joiner → Prop
  | .written op => ∃ t rest, c.ahead = t :: rest ∧ BinaryOp.ofToken? t.kind = some op
  | .juxtaposed => ∃ t passed u rest, c.passed = t :: passed ∧ c.ahead = u :: rest ∧
      (t.kind = .int ∨ t.kind = .decimal ∨ t.kind = .closing) ∧
      (u.kind = .name ∨ u.kind = .opening)

/-- No place has two joiners. -/
theorem Joins.unique {c : Cursor} {j j' : Joiner} (h : c.Joins j) (h' : c.Joins j') : j = j' := by
  have hnone : ∀ op, c.Joins (.written op) → ¬ c.Joins .juxtaposed := by
    rintro op ⟨t, rest, hahead, hop⟩ ⟨_, _, u, _, -, hahead', -, hu⟩
    rw [hahead] at hahead'
    cases hahead'
    rcases hu with hu | hu <;> simp [hu, BinaryOp.ofToken?] at hop
  rcases j with (op | -) <;> rcases j' with (op' | -)
  · obtain ⟨t, rest, hahead, hop⟩ := h
    obtain ⟨u, rest', hahead', hop'⟩ := h'
    rw [hahead] at hahead'
    cases hahead'
    rw [hop] at hop'
    cases hop'
    rfl
  · exact absurd h' (hnone op h)
  · exact absurd h (hnone op' h')
  · rfl

theorem joiner?_eq_written_iff (c : Cursor) (op : BinaryOp) :
    c.joiner? = some (.written op) ↔ c.significant.Joins (.written op) := by
  rw [joiner?, nextKind?_eq, Joins]
  cases hahead : c.significant.ahead with
  | nil =>
    simp only [List.head?_nil, Option.map_none, Option.bind_none]
    split <;> simp
  | cons t rest =>
    simp only [List.head?_cons, Option.map_some, Option.bind_some]
    cases hop : BinaryOp.ofToken? t.kind with
    | none =>
      constructor
      · intro h
        by_cases hjuxtaposes : c.juxtaposes <;> simp [hjuxtaposes] at h
      · rintro ⟨u, rest', heq, hu⟩
        cases heq
        rw [hop] at hu
        cases hu
    | some op' =>
      constructor
      · intro h
        cases h
        exact ⟨t, rest, rfl, hop⟩
      · rintro ⟨u, rest', heq, hu⟩
        cases heq
        rw [hop] at hu
        cases hu
        rfl

theorem joiner?_eq_juxtaposed_iff (c : Cursor) :
    c.joiner? = some .juxtaposed ↔ c.significant.Joins .juxtaposed := by
  rw [joiner?, juxtaposes, nextKind?_eq, previous?_eq, Joins]
  cases hahead : c.significant.ahead with
  | nil => simp
  | cons u rest =>
    cases hpassed : c.significant.passed with
    | nil =>
      simp only [List.head?_cons, Option.map_some, Option.bind_some, List.head?_nil]
      cases BinaryOp.ofToken? u.kind <;> simp
    | cons t passed =>
      simp only [List.head?_cons, Option.map_some, Option.bind_some]
      constructor
      · intro h
        refine ⟨t, passed, u, rest, rfl, rfl, ?_⟩
        cases hu : u.kind <;> simp [hu, BinaryOp.ofToken?] at h ⊢ <;>
          cases ht : t.kind <;> simp [ht, TokenKind.isNumber] at h ⊢
      · rintro ⟨t', passed', u', rest', hp, ha, ht, hu⟩
        cases hp
        cases ha
        rcases hu with hu | hu <;> rcases ht with ht | ht | ht <;>
          simp [hu, ht, BinaryOp.ofToken?, TokenKind.isNumber]

/-- The reader sees the joiners of the grammar. -/
theorem joiner?_eq_some_iff (c : Cursor) (j : Joiner) :
    c.joiner? = some j ↔ c.significant.Joins j := by
  cases j with
  | written op => exact c.joiner?_eq_written_iff op
  | juxtaposed => exact c.joiner?_eq_juxtaposed_iff

/-- Nothing joins the operand before the end of an expression to anything. -/
theorem joiner?_eq_none_of_end {c : Cursor} (h : c.significant.ahead = []) : c.joiner? = none := by
  rw [Option.eq_none_iff_forall_ne_some]
  intro j hj
  rw [joiner?_eq_some_iff] at hj
  rcases j with (op | -)
  · obtain ⟨t, rest, hahead, -⟩ := hj
    rw [h] at hahead
    cases hahead
  · obtain ⟨t, passed, u, rest, -, hahead, -⟩ := hj
    rw [h] at hahead
    cases hahead

end Cursor

namespace Expr

namespace Category

/-- The place in the order of categories: what is a category of a higher rank is also one of every
lower rank. -/
def rank : Category → Nat
  | sum => 0
  | product => 1
  | signed => 2
  | power => 3
  | atom => 4

/-- What may stand before a joiner. -/
def before : Precedence → Category
  | .power => atom
  | .factor => product
  | _ => sum

/-- What may stand after a joiner. -/
def after : Precedence → Category
  | .term => product
  | _ => signed

/-- What operands form that are joined at least as tightly as a precedence. -/
def joined : Precedence → Category
  | .any | .term => sum
  | .factor => product
  | .sign => signed
  | .power => power

theorem joined_rank_le_before (op : BinaryOp) :
    (joined op.precedence).rank ≤ (before op.precedence).rank := by
  cases op <;> decide

/-- A looser bound admits a looser category. -/
theorem joined_rank_le {p least : Precedence} (h : ¬ p < least) :
    (joined least).rank ≤ (joined p).rank := by
  revert h
  cases p <;> cases least <;> decide

/-- What was joined by an operator may stand before every joiner that does not outrank it. -/
theorem before_rank_le_joined {j : Joiner} {op : BinaryOp}
    (h : j.outranks op.precedence = false) :
    (before j.precedence).rank ≤ (joined op.precedence).rank := by
  revert h
  rcases j with (op' | -)
  · cases op' <;> cases op <;> decide
  · cases op <;> decide

theorem before_rank_le_joined_of_lt {j : Joiner} {p : Precedence} (h : j.precedence < p) :
    (before j.precedence).rank ≤ (joined p).rank := by
  revert h
  rcases j with (op | -)
  · cases op <;> cases p <;> decide
  · cases p <;> decide

/-- What was joined by a joiner that outranks an operator may stand after that operator. -/
theorem after_rank_le_joined {j : Joiner} {op : BinaryOp} (h : j.outranks op.precedence = true) :
    (after op.precedence).rank ≤ (joined j.precedence).rank := by
  revert h
  rcases j with (op' | -)
  · cases op' <;> cases op <;> decide
  · cases op <;> decide

end Category

namespace Derives

variable {α : Type} [Numeral α] {cat cat' : Category} {c c' : Cursor} {e : Expr α}

theorem loosen (h : Derives cat c e c') (hrank : cat'.rank ≤ cat.rank) : Derives cat' c e c' := by
  have hpower : cat = .atom → Derives .power c e c' := by
    rintro rfl
    exact .atom h
  have hsigned : cat = .atom ∨ cat = .power → Derives .signed c e c' := by
    rintro (hcat | rfl)
    · exact .unsigned (hpower hcat)
    · exact .unsigned h
  have hproduct : cat ≠ .sum → Derives .product c e c' := by
    intro hcat
    cases cat with
    | sum => exact absurd rfl hcat
    | product => exact h
    | signed => exact .factor h
    | power => exact .factor (hsigned (.inr rfl))
    | atom => exact .factor (hsigned (.inl rfl))
  cases cat' with
  | sum =>
    by_cases hcat : cat = .sum
    · rw [← hcat]
      exact h
    · exact .term (hproduct hcat)
  | product =>
    refine hproduct ?_
    rintro rfl
    exact absurd hrank (by decide)
  | signed =>
    cases cat with
    | signed => exact h
    | power => exact hsigned (.inr rfl)
    | atom => exact hsigned (.inl rfl)
    | sum => exact absurd hrank (by decide)
    | product => exact absurd hrank (by decide)
  | power =>
    cases cat with
    | power => exact h
    | atom => exact hpower rfl
    | sum => exact absurd hrank (by decide)
    | product => exact absurd hrank (by decide)
    | signed => exact absurd hrank (by decide)
  | atom =>
    cases cat with
    | atom => exact h
    | sum => exact absurd hrank (by decide)
    | product => exact absurd hrank (by decide)
    | signed => exact absurd hrank (by decide)
    | power => exact absurd hrank (by decide)

/-- Without a sign in front, a signed operand is a power. -/
theorem power_of_signed {t : Token} {rest : List Token} (h : Derives .signed c e c')
    (hahead : c.ahead = t :: rest) (hkind : t.kind ≠ .minus) : Derives .power c e c' := by
  cases h with
  | unsigned he => exact he
  | negation hminus _ =>
    cases hahead
    exact absurd hminus hkind

/-- Two operands with an operator between them. -/
theorem join_written {m : Cursor} {passed ahead : List Token} {t : Token} {op : BinaryOp}
    {left right : Expr α} (hkind : BinaryOp.ofToken? t.kind = some op)
    (hm : m = ⟨passed, t :: ahead⟩) (hleft : Derives (.before op.precedence) c left m)
    (hright : Derives (.after op.precedence) ⟨t :: passed, ahead⟩ right c') :
    Derives (.joined op.precedence) c (join (.written op) t.span left right) c' := by
  subst hm
  cases op with
  | power =>
    refine .power hleft ?_ hright
    cases hk : t.kind <;> simp [hk, BinaryOp.ofToken?] at hkind ⊢
  | times => exact .product hleft hkind (.inl rfl) hright
  | divide => exact .product hleft hkind (.inr rfl) hright
  | plus => exact .sum hleft hkind (.inl rfl) hright
  | minus => exact .sum hleft hkind (.inr rfl) hright

/-- Two operands without an operator between them. -/
theorem join_juxtaposed {m : Cursor} {left right : Expr α} (hjoins : m.Joins .juxtaposed)
    (hleft : Derives (.before .factor) c left m) (hright : Derives (.after .factor) m right c') :
    Derives (.joined .factor) c (join .juxtaposed default left right) c' := by
  obtain ⟨t, passed, u, rest, hpassed, hahead, ht, hu⟩ := hjoins
  have hpower : Derives .power m right c' := by
    refine hright.power_of_signed hahead ?_
    rcases hu with hu | hu <;> rw [hu] <;> decide
  have hplace : m = ⟨t :: passed, u :: rest⟩ := by
    rw [← hpassed, ← hahead]
  rw [hplace] at hleft hpower
  exact .juxtaposed hleft ht hu hpower

end Derives

end Expr

end Fluxion
