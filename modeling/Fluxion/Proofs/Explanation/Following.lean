import Fluxion.Explanation

/-!
# The explanation follows the derivative

A derivative is taken by one recursion, and explained by another. Here the first one keeps a record:
which rule it applies to which term, how deep, one after the other. The explanation states exactly
these rules in this order, and after a rule the derivative if its term is a monomial. All other
lines only announce what comes next.
-/

namespace Fluxion

/-- A rule that is applied to a term. The depth counts the applications that wait for its outcome.
-/
structure Application (α : Type) where
  term : Term α
  rule : Rule
  depth : Nat

namespace Term

variable {α : Type} [Scalar α]

end Term

/-- Whether the line states neither a rule nor a derivative, but announces what comes next. -/
def Line.isAnnouncement {α : Type} : Line α → Bool
  | rule _ _ _ | note _ _ => false
  | _ => true

namespace Explainer

variable {α : Type} [Scalar α] [Numeral α] (x : Explainer)

/-- The rule for a term that lies at a depth. -/
def application (t : Term α) (depth : Nat) : Application α := ⟨t, Rule.of x.var t, depth⟩

/-- What is stated about a rule that is applied: the rule, and the derivative of its term if that is
a monomial. -/
def statement (a : Application α) : List (Line α) :=
  .rule a.rule.name (a.rule.formula x.var) a.depth ::
    (if a.term.isMonomial then [x.note a.term a.depth] else [])

/-- The lines state the applications one after the other, with nothing but announcements before each
of them. -/
inductive Recounts : List (Application α) → List (Line α) → Prop
  | nil : Recounts [] []
  | cons {a : Application α} {as : List (Application α)} {announced lines : List (Line α)}
      (hannounced : ∀ l ∈ announced, l.isAnnouncement = true) (hrest : Recounts as lines) :
      Recounts (a :: as) (announced ++ x.statement a ++ lines)

variable {x}

namespace Recounts

variable {a : Application α} {as bs : List (Application α)} {lines more : List (Line α)}

theorem append (h : x.Recounts as lines) (h' : x.Recounts bs more) :
    x.Recounts (as ++ bs) (lines ++ more) := by
  induction h with
  | nil => exact h'
  | cons hannounced _ ih =>
    rw [List.append_assoc]
    exact .cons hannounced ih

/-- More announcements may come first. -/
theorem announce {announced : List (Line α)} (hannounced : ∀ l ∈ announced, l.isAnnouncement = true)
    (h : x.Recounts (a :: as) lines) : x.Recounts (a :: as) (announced ++ lines) := by
  cases h with
  | @cons _ _ announced' rest hannounced' hrest =>
    have hboth : ∀ l ∈ announced ++ announced', l.isAnnouncement = true :=
      List.forall_mem_append.2 ⟨hannounced, hannounced'⟩
    simpa only [List.append_assoc] using Recounts.cons (x := x) (a := a) hboth hrest

/-- The rule for a term is stated without an announcement. -/
theorem first {t : Term α} {depth : Nat} (h : x.Recounts as lines) :
    x.Recounts (x.application t depth :: as) (x.ruleLines t depth ++ lines) := by
  have hnone : ∀ l ∈ ([] : List (Line α)), l.isAnnouncement = true := by simp
  exact .cons hnone h

theorem both {l r : Term α} {depth : Nat} {a b : Application α} {as bs : List (Application α)}
    {left right : List (Line α)} (hl : x.Recounts (a :: as) left)
    (hr : x.Recounts (b :: bs) right) :
    x.Recounts (a :: as ++ b :: bs) (x.both l r depth left right) := by
  have hleft : x.Recounts (a :: as) ([x.operands [('f', l), ('g', r)] depth,
      .separately x.var depth, x.header 'f' l (depth + 1)] ++ left) :=
    hl.announce (by simp [operands, header, Line.isAnnouncement])
  have hright : x.Recounts (b :: bs) ([x.header 'g' r (depth + 1)] ++ right) :=
    hr.announce (by simp [header, Line.isAnnouncement])
  exact hleft.append hright

theorem inner {u : Term α} {depth : Nat} (h : x.Recounts (a :: as) lines) :
    x.Recounts (a :: as) (x.inner u depth lines) := by
  have hlines : x.Recounts (a :: as) ([x.operands [('u', u)] depth, x.header 'u' u (depth + 1)] ++
      lines) := h.announce (by simp [operands, header, Line.isAnnouncement])
  exact hlines

end Recounts

end Explainer

end Fluxion
