import Fluxion.Proofs.Term.CoefficientForm
import Fluxion.Proofs.Term.FormalDegree

/-!
# Terms without the variable

The symbols other than the variable are constants: the derivative of a term in which the variable
does not occur is zero. Each rule leaves copies of the operands beside derivatives that are zero, and
the identities have to take all of them away. Zero factors do so whatever stands beside them. A zero
that is divided by the square of a divisor is only taken away if the square is not zero, so that no
divisor of the term may come to zero.
-/

namespace Fluxion

namespace Simplified

open ExactScalar (toReal)
open UnboundedScalar (toReal_add toReal_sub toReal_mul toReal_pow)
open Term (isValue_zero_iff exists_const_of_isValue)

variable {α : Type} [ExactScalar α] [UnboundedScalar α] {l r b : Term α}

theorem isValue_add (hl : l.isValue 0 = true) (hr : r.isValue 0 = true) :
    (add l r).term.isValue 0 = true := by
  obtain ⟨v, rfl, hv⟩ := exists_const_of_isValue hl
  obtain ⟨w, rfl, hw⟩ := exists_const_of_isValue hr
  rw [add, foldOr_eq]
  refine isValue_zero_iff.2 ?_
  rw [toReal_add, hv, hw, add_zero]

theorem isValue_sub (hl : l.isValue 0 = true) (hr : r.isValue 0 = true) :
    (sub l r).term.isValue 0 = true := by
  obtain ⟨v, rfl, hv⟩ := exists_const_of_isValue hl
  obtain ⟨w, rfl, hw⟩ := exists_const_of_isValue hr
  rw [sub, foldOr_eq]
  refine isValue_zero_iff.2 ?_
  rw [toReal_sub, hv, hw, sub_zero]

/-- Zero divided by what is not zero. -/
theorem isValue_div (hl : l.isValue 0 = true) (hr : r.isValue 0 = false) :
    (div l r).term.isValue 0 = true := by
  have hnode : (divNode l r).term.isValue 0 = true := by
    unfold divNode
    split
    · exact hl
    · rw [hl, hr]
      exact isValue_zero_iff.2 ExactScalar.toReal_zero
  fun_cases div l r with
  | case1 v w hw => exact hnode
  | case2 v w hw =>
    have hv : toReal v = 0 := isValue_zero_iff.1 hl
    have hw : toReal w ≠ 0 := mt isValue_zero_iff.2 (ne_true_of_eq_false hr)
    rw [foldOr_eq]
    refine isValue_zero_iff.2 ?_
    rw [ExactScalar.toReal_div (UnboundedScalar.isFinite v) (UnboundedScalar.isFinite w) hw
      (UnboundedScalar.isFinite _), hv, zero_div]
  | case3 => exact hnode

/-- The square of what is not zero is not zero. -/
theorem isValue_square (hb : b.isValue 0 = false) : (pow b Scalar.two).term.isValue 0 = false := by
  have htwo : toReal (Scalar.two : α) = (2 : ℕ) := ExactScalar.toReal_two
  have hzero : ¬ (Scalar.two : α) == 0 := by
    rw [UnboundedScalar.beq_iff, htwo, ExactScalar.toReal_zero]
    norm_num
  have hone : ¬ (Scalar.two : α) == 1 := by
    rw [UnboundedScalar.beq_iff, htwo, ExactScalar.toReal_one]
    norm_num
  unfold pow
  rw [if_neg hzero, if_neg hone]
  split
  · next v =>
    have hv : toReal v ≠ 0 := mt isValue_zero_iff.2 (ne_true_of_eq_false hb)
    rw [foldOr_eq]
    refine eq_false_of_ne_true (mt isValue_zero_iff.1 ?_)
    rw [toReal_pow v htwo]
    exact pow_ne_zero 2 hv
  · rfl

end Simplified

namespace Term

open ExactScalar (toReal)
open Simplified (isValue_add isValue_sub isValue_mul_left isValue_mul_right isValue_div
  isValue_square)

variable {α : Type} [ExactScalar α] [UnboundedScalar α] {var : String}

/-- The node is not the variable, and does not divide by a term that comes to zero. -/
def Steady (var : String) : Term α → Prop
  | symbol name => name ≠ var
  | quotient _ r => r.simplify.isValue 0 = false
  | _ => True

theorem isValue_simplify_derivative {t : Term α} (h : ∀ s ∈ t.nodes, s.Steady var) :
    (t.derivative var).simplify.isValue 0 = true := by
  induction t with
  | const v => exact isValue_zero_iff.2 ExactScalar.toReal_zero
  | symbol name =>
    have hname : name ≠ var := h _ (List.mem_singleton_self _)
    rw [derivative, if_neg (by simpa using hname)]
    exact isValue_zero_iff.2 ExactScalar.toReal_zero
  | sum l r ihl ihr =>
    rw [nodes, List.forall_mem_cons, List.forall_mem_append] at h
    exact isValue_add (ihl h.2.1) (ihr h.2.2)
  | difference l r ihl ihr =>
    rw [nodes, List.forall_mem_cons, List.forall_mem_append] at h
    exact isValue_sub (ihl h.2.1) (ihr h.2.2)
  | product l r ihl ihr =>
    rw [nodes, List.forall_mem_cons, List.forall_mem_append] at h
    exact isValue_add (isValue_mul_left (ihl h.2.1) _) (isValue_mul_right _ (ihr h.2.2))
  | quotient l r ihl ihr =>
    rw [nodes, List.forall_mem_cons, List.forall_mem_append] at h
    -- the rule squares the divisor, which must not come to zero for this
    refine isValue_div ?_ (isValue_square h.1)
    exact isValue_sub (isValue_mul_left (ihl h.2.1) _) (isValue_mul_right _ (ihr h.2.2))
  | power b e ih =>
    rw [nodes, List.forall_mem_cons] at h
    -- the rule for powers of the variable leaves no zero factor
    have hbase : ¬ b.isSymbol var = true := by
      intro hsymbol
      obtain rfl := eq_symbol_of_isSymbol hsymbol
      exact h.2 _ (List.mem_singleton_self _) rfl
    rw [derivative, if_neg hbase]
    exact isValue_mul_right _ (ih h.2)
  | call f a ih =>
    rw [nodes, List.forall_mem_cons] at h
    exact isValue_mul_right _ (ih h.2)

/-- The derivative with respect to a variable that does not occur is zero, if no divisor simplifies to
zero. -/
theorem derive_eq_zero_of_absent {t : Term α} (hvar : symbol var ∉ t.nodes)
    (hdivisors : ∀ l r, quotient l r ∈ t.nodes → r.simplify.isValue 0 = false) :
    (t.derive var).isValue 0 = true := by
  have hsteady : ∀ s ∈ t.nodes, s.Steady var := by
    intro s hs
    cases s with
    | symbol name =>
      rintro rfl
      exact hvar hs
    | quotient l r => exact hdivisors l r hs
    | const _ | sum _ _ | difference _ _ | product _ _ | power _ _ | call _ _ => trivial
  exact isValue_derive (isValue_simplify_derivative hsteady)

/-- `ln(y^0.5 / z) / (3 - 1)` does not depend on `x`. -/
theorem derive_eq_zero_of_absent_quotients :
    let t : Term ℝ := .quotient (.call .ln (.quotient (.power (.symbol "y") (1 / 2)) (.symbol "z")))
      (.difference (.const 3) (.const 1))
    symbol "x" ∉ t.nodes ∧ (∀ l r, quotient l r ∈ t.nodes → r.simplify.isValue 0 = false) ∧
    (t.derive "x").isValue 0 = true := by
  intro t
  have hvar : symbol "x" ∉ t.nodes := by simp [t, nodes]
  have hdivisors : ∀ l r, quotient l r ∈ t.nodes → r.simplify.isValue 0 = false := by
    intro l r h
    simp only [t, nodes, List.cons_append, List.nil_append, List.mem_cons, List.not_mem_nil,
      quotient.injEq, reduceCtorEq, or_false, false_or] at h
    rcases h with ⟨-, rfl⟩ | ⟨-, rfl⟩
    · have htwo : toReal (3 - 1 : ℝ) ≠ 0 := by norm_num [toReal]
      exact eq_false_of_ne_true (mt isValue_zero_iff.1 htwo)
    · rfl
  exact ⟨hvar, hdivisors, derive_eq_zero_of_absent hvar hdivisors⟩

end Term

end Fluxion
