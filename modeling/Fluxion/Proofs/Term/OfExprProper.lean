import Fluxion.Proofs.Expr.Grammar
import Fluxion.Proofs.Term.Materials
import Fluxion.Proofs.Term.RealValue
import Fluxion.Term.OfExpr

/-!
# Proper numbers in terms

An expression with proper numbers only becomes such a term, with the symbols of the expression: the
signs of numbers are taken into them, and exponents that are not proper are refused. The term is no
deeper than the expression may be.
-/

namespace Fluxion

theorem bind_eq_ok {ε β γ : Type} {x : Except ε β} {f : β → Except ε γ} {b : γ} :
    (x >>= f) = .ok b ↔ ∃ a, x = .ok a ∧ f a = .ok b := by
  cases x with
  | ok a =>
    constructor
    · intro h
      exact ⟨a, rfl, h⟩
    · rintro ⟨a', ha, h⟩
      cases ha
      exact h
  | error err =>
    constructor
    · intro h
      cases h
    · rintro ⟨a, ha, -⟩
      cases ha

theorem map_eq_ok {ε β γ : Type} {x : Except ε β} {f : β → γ} {b : γ} :
    (f <$> x) = .ok b ↔ ∃ a, x = .ok a ∧ f a = b := by
  rw [map_eq_pure_bind, bind_eq_ok]
  constructor
  · rintro ⟨a, ha, hb⟩
    cases hb
    exact ⟨a, ha, rfl⟩
  · rintro ⟨a, ha, rfl⟩
    exact ⟨a, ha, rfl⟩

/-- Exact numbers stay proper where numbers should. -/
instance properScalar_of_exact {α : Type} [ExactScalar α] : ProperScalar α where
  isFinite_zero := ExactScalar.isFinite_zero
  isFinite_one := ExactScalar.isFinite_one
  isFinite_two := ExactScalar.isFinite_two
  isFinite_lnTen := ExactScalar.isFinite_lnTen
  isFinite_neg := ExactScalar.isFinite_neg
  isFinite_pred := ExactScalar.isFinite_pred

namespace Expr

variable {α : Type} [Scalar α] {allowed : String → Prop}

/-- Every number of the expression is a proper one, and every symbol is allowed. -/
def MadeOf (allowed : String → Prop) : Expr α → Prop
  | number value _ => Scalar.isFinite value = true
  | symbol name _ => allowed name
  | paren inner _ => inner.MadeOf allowed
  | call _ _ _ arg _ => arg.MadeOf allowed
  | negation _ operand _ => operand.MadeOf allowed
  | binary _ left right _ => left.MadeOf allowed ∧ right.MadeOf allowed

theorem proper_iff_madeOf (e : Expr α) : e.Proper ↔ e.MadeOf fun _ => True := by
  induction e with
  | number _ _ | symbol _ _ => rfl
  | paren inner s ih => exact ih
  | call func name ns arg ps ih => exact ih
  | negation sign operand s ih => exact ih
  | binary op left right s ihl ihr => exact and_congr ihl ihr

omit [Scalar α] in
theorem le_of_checkDepth {most depth : Nat} {e : Expr α} {u : Unit}
    (h : checkDepth most depth e = .ok u) : depth ≤ most := by
  unfold checkDepth at h
  split at h
  · cases h
  · next hle => omega

theorem isFinite_of_exponent {most depth : Nat} {e : Expr α} {v : α}
    (h : e.exponent most depth = .ok v) : Scalar.isFinite v = true := by
  obtain ⟨w, -, hw⟩ := bind_eq_ok.1 h
  split at hw
  · next hfinite =>
    cases hw
    exact hfinite
  · cases hw

omit [Scalar α] in
theorem depth_node {op : BinaryOp} {join : Term α → Term α → Term α} (hjoin : node op = some join)
    (l r : Term α) : (join l r).depth = 1 + max l.depth r.depth := by
  cases op <;> cases hjoin <;> rfl

theorem depth_negate_le (t : Term α) : (negate t).depth ≤ 1 + t.depth := by
  have hpos : 1 ≤ t.depth := by cases t <;> simp only [Term.depth] <;> omega
  cases t with
  | const v => exact Nat.le_add_left 1 _
  | symbol _ | sum _ _ | difference _ _ | product _ _ | quotient _ _ | power _ _ | call _ _ =>
    simp only [negate, Term.depth] at hpos ⊢
    omega

/-- Below the place of the expression, its term takes up the levels that are left at most. -/
theorem depth_term {most depth : Nat} {e : Expr α} {t : Term α} (h : e.term most depth = .ok t) :
    t.depth + depth ≤ most + 1 := by
  induction e generalizing depth t with
  | number v s | symbol name s =>
    obtain ⟨_, hdepth, h⟩ := bind_eq_ok.1 h
    cases h
    have := le_of_checkDepth hdepth
    simp only [Term.depth]
    omega
  | paren inner s ih =>
    obtain ⟨-, -, h⟩ := bind_eq_ok.1 h
    exact ih h
  | call func name ns arg ps ih =>
    obtain ⟨-, -, h⟩ := bind_eq_ok.1 h
    obtain ⟨a, ha, rfl⟩ := map_eq_ok.1 h
    have := ih ha
    simp only [Term.depth]
    omega
  | negation sign operand s ih =>
    obtain ⟨-, -, h⟩ := bind_eq_ok.1 h
    obtain ⟨a, ha, rfl⟩ := map_eq_ok.1 h
    have := ih ha
    have := depth_negate_le a
    omega
  | binary op left right s ihl ihr =>
    obtain ⟨-, -, h⟩ := bind_eq_ok.1 h
    obtain ⟨l, hl, h⟩ := bind_eq_ok.1 h
    have hleft := ihl hl
    split at h
    · next join hjoin =>
      obtain ⟨r, hr, rfl⟩ := map_eq_ok.1 h
      have hright := ihr hr
      rw [depth_node hjoin]
      omega
    · obtain ⟨v, -, rfl⟩ := map_eq_ok.1 h
      simp only [Term.depth]
      omega

theorem madeOf_node {op : BinaryOp} {join : Term α → Term α → Term α} {l r : Term α}
    (hjoin : node op = some join) (hl : l.MadeOf allowed) (hr : r.MadeOf allowed) :
    (join l r).MadeOf allowed := by
  cases op <;> cases hjoin <;> exact ⟨hl, hr⟩

variable [ProperScalar α]

theorem madeOf_negate {t : Term α} (ht : t.MadeOf allowed) : (negate t).MadeOf allowed := by
  cases t with
  | const v => exact ProperScalar.isFinite_neg ht
  | symbol _ | sum _ _ | difference _ _ | product _ _ | quotient _ _ | power _ _ | call _ _ =>
    exact ⟨ProperScalar.isFinite_negOne, ht⟩

theorem madeOf_term {most depth : Nat} {e : Expr α} {t : Term α} (he : e.MadeOf allowed)
    (h : e.term most depth = .ok t) : t.MadeOf allowed := by
  induction e generalizing depth t with
  | number v s | symbol name s =>
    obtain ⟨-, -, h⟩ := bind_eq_ok.1 h
    cases h
    exact he
  | paren inner s ih =>
    obtain ⟨-, -, h⟩ := bind_eq_ok.1 h
    exact ih he h
  | call func name ns arg ps ih =>
    obtain ⟨-, -, h⟩ := bind_eq_ok.1 h
    obtain ⟨a, ha, rfl⟩ := map_eq_ok.1 h
    have harg : a.MadeOf allowed := ih he ha
    exact harg
  | negation sign operand s ih =>
    obtain ⟨-, -, h⟩ := bind_eq_ok.1 h
    obtain ⟨a, ha, rfl⟩ := map_eq_ok.1 h
    exact madeOf_negate (ih he ha)
  | binary op left right s ihl ihr =>
    obtain ⟨-, -, h⟩ := bind_eq_ok.1 h
    obtain ⟨l, hl, h⟩ := bind_eq_ok.1 h
    have hleft : l.MadeOf allowed := ihl he.1 hl
    split at h
    · next join hjoin =>
      obtain ⟨r, hr, rfl⟩ := map_eq_ok.1 h
      exact madeOf_node hjoin hleft (ihr he.2 hr)
    · obtain ⟨v, hv, rfl⟩ := map_eq_ok.1 h
      exact ⟨hleft, isFinite_of_exponent hv⟩

theorem proper_term {most depth : Nat} {e : Expr α} {t : Term α} (he : e.Proper)
    (h : e.term most depth = .ok t) : t.Proper :=
  (Term.proper_iff_madeOf t).2 (madeOf_term ((proper_iff_madeOf e).1 he) h)

end Expr

end Fluxion
