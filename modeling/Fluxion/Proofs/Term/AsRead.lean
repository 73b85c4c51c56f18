import Fluxion.Proofs.Term.SameValue
import Fluxion.Term.OfExpr

/-!
# The tree that a text is read as

The text of a term says less than the term does. A minus sign at the front of a right operand becomes
that of the operator before it, and a coefficient or a sign in front of a chain of factors takes only
the first of them, where the term has it multiplied with the whole chain. `asRead` is the tree that
is read instead. It has the value of the term.
-/

namespace Fluxion

open Fluxion.Expr (negate)

namespace Term

variable {α : Type} [Scalar α]

/-- The first term is a copy of the second one: the same tree, with equal numbers in the same places,
and with the same signs taken into numbers. -/
inductive Copies : Term α → Term α → Prop
  | const {v w : α} (h : (v == w) = true) : Copies (.const v) (.const w)
  | symbol (name : String) : Copies (.symbol name) (.symbol name)
  | sum {l l' r r' : Term α} (hl : Copies l' l) (hr : Copies r' r) :
      Copies (.sum l' r') (.sum l r)
  | difference {l l' r r' : Term α} (hl : Copies l' l) (hr : Copies r' r) :
      Copies (.difference l' r') (.difference l r)
  | product {l l' r r' : Term α} (hl : Copies l' l) (hr : Copies r' r) :
      Copies (.product l' r') (.product l r)
  | quotient {l l' r r' : Term α} (hl : Copies l' l) (hr : Copies r' r) :
      Copies (.quotient l' r') (.quotient l r)
  | power {b b' : Term α} {e e' : α} (hb : Copies b' b) (he : (e' == e) = true) :
      Copies (.power b' e') (.power b e)
  | call {a a' : Term α} (f : Func) (ha : Copies a' a) : Copies (.call f a') (.call f a)
  | negate {s t : Term α} (h : Copies s t) : Copies (negate s) (negate t)

/-- What is made of the first factor after a coefficient: it becomes the right operand of a product,
or takes the sign if the sign of the coefficient is all that is written. On the left of the product
stands what is made of the coefficient. -/
def afterCoefficient (c : α) (factor : List Char) (first : Term α → Term α) (t : Term α) : Term α :=
  if takesCoefficient factor && c == -1 then first (negate t) else product (first (const c)) t

/-- Of the coefficient minus one only the sign is written, if the factor can follow right after it. -/
theorem afterCoefficient_of_sign {c : α} {factor : List Char}
    (htakes : takesCoefficient factor = true) (hone : (c == -1) = true)
    (first : Term α → Term α) : afterCoefficient c factor first = fun t => first (negate t) := by
  funext t
  rw [afterCoefficient, htakes, hone]
  rfl

theorem afterCoefficient_of_number {c : α} {factor : List Char}
    (h : takesCoefficient factor = false ∨ (c == -1) = false) (first : Term α → Term α) :
    afterCoefficient c factor first = product (first (const c)) := by
  funext t
  rw [afterCoefficient]
  rcases h with h | h <;> simp [h]

section Reading

variable [Numeral α]

/-- The tree that the text of a term is read as. If the text is a chain of factors, `first` says what
is made of the first one; parentheses, and any other text, are a chain of one factor. -/
def asRead : Term α → (Term α → Term α) → Term α
  | const v, first => first (const v)
  | symbol name, first => first (symbol name)
  | sum l r, first => first (signed r.hasMinus (l.asRead id) (r.unsigned.asRead id))
  | difference l r, first => first (signed (!r.hasMinus) (l.asRead id) (r.unsigned.asRead id))
  | product (const c) r, first =>
    if startsWithMinus (r.chars .caret) then
      afterCoefficient c (operandText r (r.chars .caret)) first (r.asRead id)
    else
      r.asRead (afterCoefficient c (operandText r (r.chars .caret)) first)
  | product l r, first => product (l.asRead first) (r.asRead id)
  | quotient l r, first => quotient (l.asRead first) (r.asRead id)
  | power b e, first => first (power (b.asRead id) e)
  | call f a, first => first (call f (a.asRead id))
termination_by t => t.size
decreasing_by all_goals grind [size, size_unsigned_le]

theorem asRead_of_isAdditive {t : Term α} (h : t.isAdditive = true) (first : Term α → Term α) :
    t.asRead first = first (t.asRead id) := by
  cases t with
  | sum l r | difference l r => simp only [asRead, id]
  | const _ | symbol _ | product _ _ | quotient _ _ | power _ _ | call _ _ => cases h

/-- Without a coefficient, a product is read as one. -/
theorem asRead_product {l : Term α} (h : l.isConst = false) (r : Term α)
    (first : Term α → Term α) :
    (product l r).asRead first = product (l.asRead first) (r.asRead id) := by
  rw [asRead]
  rintro c rfl
  cases h

end Reading

/-! ## The same value

A factor that follows may be taken into what is made of the first one, and so may a divisor. -/

section Values

variable [SignedScalar α] {s t : Term α} {first : Term α → Term α}

theorem sameValue_negate (t : Term α) : SameValue (negate t) (product (const (-1)) t) := by
  cases t with
  | const v => exact sameValue_const_neg v
  | symbol _ | sum _ _ | difference _ _ | product _ _ | quotient _ _ | power _ _ | call _ _ =>
    exact .refl _

theorem SameValue.negate (h : SameValue s t) : SameValue (Expr.negate s) (Expr.negate t) :=
  ((sameValue_negate s).trans ((SameValue.refl _).product h)).trans (sameValue_negate t).symm

/-- A copy has the value of the term. -/
theorem Copies.sameValue (h : s.Copies t) : SameValue s t := by
  induction h with
  | const h => exact sameValue_const h
  | symbol name => exact .refl _
  | sum _ _ ihl ihr => exact ihl.sum ihr
  | difference _ _ ihl ihr => exact ihl.difference ihr
  | product _ _ ihl ihr => exact ihl.product ihr
  | quotient _ _ ihl ihr => exact ihl.quotient ihr
  | power _ he ih => exact ih.power he
  | call f _ ih => exact ih.call f
  | negate _ ih => exact ih.negate

/-- What is made of a first factor multiplies whatever follows it. -/
structure Linear (first : Term α → Term α) : Prop where
  congr {s t : Term α} : SameValue s t → SameValue (first s) (first t)
  product (l r : Term α) : SameValue (product (first l) r) (first (product l r))
  quotient (l r : Term α) : SameValue (quotient (first l) r) (first (quotient l r))

omit [SignedScalar α] in
theorem linear_id : Linear (id : Term α → Term α) where
  congr h := h
  product _ _ := .refl _
  quotient _ _ := .refl _

theorem linear_afterCoefficient (c : α) (factor : List Char) (h : Linear first) :
    Linear (afterCoefficient c factor first) := by
  by_cases hsign : takesCoefficient factor = true ∧ (c == -1) = true
  · have hnegate (t : Term α) : SameValue (first (negate t)) (first (.product (const (-1)) t)) :=
      h.congr (sameValue_negate t)
    rw [afterCoefficient_of_sign hsign.1 hsign.2]
    refine ⟨fun hst => h.congr hst.negate, fun l r => ?_, fun l r => ?_⟩
    · refine ((hnegate l).product (.refl r)).trans ((h.product _ _).trans ?_)
      exact (h.congr (sameValue_product_product _ _ _)).trans (hnegate _).symm
    · refine ((hnegate l).quotient (.refl r)).trans ((h.quotient _ _).trans ?_)
      exact (h.congr (sameValue_quotient_product _ _ _)).trans (hnegate _).symm
  · rw [not_and_or, Bool.not_eq_true, Bool.not_eq_true] at hsign
    rw [afterCoefficient_of_number hsign]
    exact ⟨fun hst => (SameValue.refl _).product hst, fun _ _ => sameValue_product_product _ _ _,
      fun _ _ => sameValue_quotient_product _ _ _⟩

theorem sameValue_afterCoefficient (c : α) (factor : List Char) (h : Linear first) (t : Term α) :
    SameValue (afterCoefficient c factor first t) (first (product (const c) t)) := by
  unfold afterCoefficient
  split
  · next hsign =>
    have hone : (c == -1) = true := (Bool.and_eq_true_iff.1 hsign).2
    refine h.congr ((sameValue_negate t).trans ?_)
    exact (sameValue_const hone).symm.product (.refl t)
  · exact h.product _ _

omit [SignedScalar α] in
theorem SameValue.signed {l l' r r' : Term α} (minus : Bool) (hl : SameValue l' l)
    (hr : SameValue r' r) : SameValue (signed minus l' r') (signed minus l r) := by
  cases minus with
  | false => exact hl.sum hr
  | true => exact hl.difference hr

/-- The tree that is read has the value of the term, and of what becomes of it as a first factor. -/
theorem sameValue_asRead [Numeral α] (t : Term α) (h : Linear first) :
    SameValue (t.asRead first) (first t) := by
  fun_induction asRead t first with
  | case1 v first => exact .refl _
  | case2 name first => exact .refl _
  | case3 l r first ihl ihr =>
    exact h.congr (((ihl linear_id).signed _ (ihr linear_id)).trans (sameValue_sum_unsigned l r))
  | case4 l r first ihl ihr =>
    exact h.congr
      (((ihl linear_id).signed _ (ihr linear_id)).trans (sameValue_difference_unsigned l r))
  | case5 c r first hminus ih =>
    exact ((linear_afterCoefficient c _ h).congr (ih linear_id)).trans
      (sameValue_afterCoefficient c _ h r)
  | case6 c r first hminus ih =>
    exact (ih (linear_afterCoefficient c _ h)).trans (sameValue_afterCoefficient c _ h r)
  | case7 l r first hconst ihl ihr => exact ((ihl h).product (ihr linear_id)).trans (h.product l r)
  | case8 l r first ihl ihr => exact ((ihl h).quotient (ihr linear_id)).trans (h.quotient l r)
  | case9 b e first ih =>
    refine h.congr ?_
    intro K _ m hm env
    simp only [eval?, ih linear_id K m hm env, id]
  | case10 f a first ih => exact h.congr ((ih linear_id).call f)

end Values

end Term

end Fluxion
