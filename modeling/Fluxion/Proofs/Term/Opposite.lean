import Fluxion.Proofs.Term.NormalForm
import Fluxion.Proofs.Scalar.Integer
import Fluxion.Term.Canonical

/-!
# Opposites

The one place where canonical order changes a term is the head of a sum: a subtracted term that
comes to stand first is negated. Negating a term in normal form changes its coefficient and nothing
else, so that it neither becomes zero nor loses a division by zero.
-/

namespace Fluxion

/-- Numbers in which multiplying with minus one changes the sign and nothing else, and which tell
zero, one and two apart. -/
class SymmetricScalar (α : Type) [Scalar α] : Prop where
  one_ne_zero : ((1 : α) == 0) = false
  two_ne_zero : ((Scalar.two : α) == 0) = false
  two_ne_one : ((Scalar.two : α) == 1) = false
  negOne_ne_zero : ((-1 : α) == 0) = false
  negOne_ne_one : ((-1 : α) == 1) = false
  ne_one_of_eq_zero {v : α} : (v == 0) = true → (v == 1) = false
  negOne_mul_eq_zero (v : α) : (-1 * v == 0) = (v == 0)
  isFinite_negOne_mul (v w : α) : Scalar.isFinite (-1 * v * w) = Scalar.isFinite (v * w)
  isFinite_negOne_div {v : α} (w : α) :
    (v == 1) = true → Scalar.isFinite (-1 / w) = Scalar.isFinite (v / w)
  isFinite_div_negOne {v w : α} :
    (v == 1) = true → (-1 == w) = true → Scalar.isFinite (v / w) = true
  isFinite_square {v : α} : (v == 0) = true → Scalar.isFinite (Scalar.pow v Scalar.two) = true
  square_eq_zero {v : α} : (v == 0) = true → (Scalar.pow v Scalar.two == 0) = true

instance : SymmetricScalar ℤ where
  one_ne_zero := rfl
  two_ne_zero := rfl
  two_ne_one := rfl
  negOne_ne_zero := rfl
  negOne_ne_one := rfl
  ne_one_of_eq_zero h := by
    rw [beq_iff_eq] at h
    rw [h]
    rfl
  negOne_mul_eq_zero v := by
    rw [Bool.eq_iff_iff, beq_iff_eq, beq_iff_eq]
    omega
  isFinite_negOne_mul _ _ := rfl
  isFinite_negOne_div _ _ := rfl
  isFinite_div_negOne _ _ := rfl
  isFinite_square _ := rfl
  square_eq_zero h := by
    rw [beq_iff_eq] at h
    rw [h]
    rfl

namespace Term

variable {α : Type} [Scalar α]

/-- A term in normal form and what becomes of it by negation. -/
inductive Negated : Term α → Term α → Prop
  | constant (v : α) : Negated (.const v) (.const (-1 * v))
  | multiple (t : Term α) : Negated t (.product (.const (-1)) t)
  /-- The coefficient is minus one. -/
  | dropped (d : α) {t : Term α} : t.isConst = false → Negated (.product (.const d) t) t
  | coefficient (d : α) (t : Term α) : Negated (.product (.const d) t) (.product (.const (-1 * d)) t)
  | reciprocal {l : Term α} (r : Term α) : l.isValue 1 = true →
    Negated (.quotient l r) (.quotient (.const (-1)) r)

omit [Scalar α] in
theorem isConst_of_isFactor {t : Term α} (h : t.isFactor = true) : t.isConst = false := by
  cases t with
  | const v => cases h
  | symbol _ | sum _ _ | difference _ _ | product _ _ | quotient _ _ | power _ _ | call _ _ => rfl

omit [Scalar α] in
theorem isFactor_product {l : Term α} (r : Term α) (h : l.isFactor = true) :
    (product l r).isFactor = true := by
  cases l with
  | const v => cases h
  | symbol _ | sum _ _ | difference _ _ | product _ _ | quotient _ _ | power _ _ | call _ _ => rfl

theorem isValue_of_not_isConst {t : Term α} (v : α) (h : t.isConst = false) :
    t.isValue v = false := by
  cases t with
  | const w => cases h
  | symbol _ | sum _ _ | difference _ _ | product _ _ | quotient _ _ | power _ _ | call _ _ => rfl

theorem dividesByZero_of_isConst {t : Term α} (h : t.isConst = true) : t.dividesByZero = false := by
  cases t with
  | const v => rfl
  | symbol _ | sum _ _ | difference _ _ | product _ _ | quotient _ _ | power _ _ | call _ _ => cases h

theorem isConst_of_isValue {t : Term α} {v : α} (h : t.isValue v = true) : t.isConst = true := by
  cases t with
  | const w => rfl
  | symbol _ | sum _ _ | difference _ _ | product _ _ | quotient _ _ | power _ _ | call _ _ => cases h

theorem isValue_of_isAdditive {t : Term α} (v : α) (h : t.isAdditive = true) :
    t.isValue v = false := by
  cases t with
  | const w => cases h
  | symbol _ | sum _ _ | difference _ _ | product _ _ | quotient _ _ | power _ _ | call _ _ => rfl

/-- The terms of a sum in normal form are in normal form, and none of them is zero. -/
theorem normal_of_mem_summandsOf {t : Term α} (h : t.Normal) (hzero : t.isValue 0 = false)
    (subtracted : Bool) {s : Summand α} (hs : s ∈ t.summandsOf subtracted) :
    s.term.Normal ∧ s.term.isValue 0 = false := by
  induction t generalizing subtracted with
  | sum l r ihl ihr | difference l r ihl ihr =>
    obtain ⟨hl, hr, hplain⟩ := h
    obtain ⟨⟨-, hlzero⟩, hrzero⟩ : (_ ∧ _) ∧ _ := by
      simpa only [plainSum, plainDifference, Bool.and_eq_true, Bool.not_eq_true'] using hplain
    rcases List.mem_append.1 hs with hs | hs
    · exact ihl hl hlzero _ hs
    · exact ihr hr hrzero _ hs
  | const _ | symbol _ | product _ _ _ _ | quotient _ _ _ _ | power _ _ _ | call _ _ _ =>
    cases List.mem_singleton.1 hs
    exact ⟨h, hzero⟩

end Term

namespace Simplified

open Term (Negated plainMultiple plainQuotient foldable)

variable {α : Type} [Scalar α] [SymmetricScalar α]

omit [SymmetricScalar α] in
theorem scaleBy_of_ne {c : α} {t : Term α} {otherwise : Simplified α} (hzero : (c == 0) = false)
    (hone : (c == 1) = false) : scaleBy c t otherwise = otherwise := by
  rw [scaleBy, hzero, hone]
  rfl

/-- The opposite coefficient is not zero; it is dropped if it is one. -/
theorem scaleBy_opposite {d : α} {t : Term α} (hzero : (d == 0) = false) (hconst : t.isConst = false) :
    Negated (.product (.const d) t)
      (scaleBy (-1 * d) t (same (.product (.const (-1 * d)) t))).term := by
  have hopposite : (-1 * d == 0) = false := (SymmetricScalar.negOne_mul_eq_zero d).trans hzero
  cases hone : (-1 * d == 1) with
  | true =>
    rw [scaleBy, hopposite, hone]
    exact .dropped d hconst
  | false =>
    rw [scaleBy_of_ne hopposite hone]
    exact .coefficient d t

/-- A coefficient with the opposite sign fits as well as the one it replaces. -/
theorem scale_opposite {d : α} {t : Term α} (h : plainMultiple d t = true) :
    Negated (.product (.const d) t) (scale (-1 * d) t).term := by
  fun_cases scale (-1 * d) t with
  | case1 v =>
    have hinfinite : Scalar.isFinite (-1 * d * v) = false := by
      rw [SymmetricScalar.isFinite_negOne_mul]
      simpa [plainMultiple] using h
    rw [foldOr, hinfinite]
    exact .coefficient d _
  | case2 e t =>
    simp only [plainMultiple, Bool.and_eq_true, Bool.not_eq_true'] at h
    obtain ⟨⟨hzero, -⟩, hinfinite⟩ := h
    rw [SymmetricScalar.isFinite_negOne_mul, hinfinite]
    exact scaleBy_opposite hzero rfl
  | case3 t hconst hmultiple =>
    have hfactor := isFactor_eq_true hconst hmultiple
    rw [plainMultiple_of_isFactor d hfactor] at h
    simp only [Bool.and_eq_true, Bool.not_eq_true', Option.isNone_iff_eq_none] at h
    obtain ⟨⟨hzero, -⟩, hnone⟩ := h
    rw [hnone]
    exact scaleBy_opposite hzero (Term.isConst_of_isFactor hfactor)

/-- The opposite of a reciprocal is a quotient that no identity applies to. -/
theorem div_negOne {l r : Term α} (h : plainQuotient l r = true) (hl : l.isValue 1 = true) :
    div (.const (-1)) r = same (.quotient (.const (-1)) r) := by
  refine (div_builds (.const (-1)) r).of_plain ?_
  obtain ⟨hone, hplain⟩ := Bool.and_eq_true_iff.1 h
  refine Bool.and_eq_true_iff.2 ⟨hone, ?_⟩
  cases hzero : r.isValue 0 with
  | true => rfl
  | false =>
    have hnegOne : (Term.const (-1) : Term α).isValue 0 = false := SymmetricScalar.negOne_ne_zero
    rw [hzero] at hplain
    rw [hnegOne]
    cases l with
    | const v =>
      cases r with
      | const w =>
        have hinfinite : Scalar.isFinite (v / w) = false := by
          simp_all [foldable]
        have hfold : foldable (· / ·) (.const (-1)) (.const w : Term α) = false :=
          (SymmetricScalar.isFinite_negOne_div w hl).trans hinfinite
        have hne : ((.const (-1) : Term α) == .const w) = false := by
          refine Bool.eq_false_iff.2 fun heq => ?_
          rw [SymmetricScalar.isFinite_div_negOne hl heq] at hinfinite
          cases hinfinite
        rw [hfold, hne]
        rfl
      | symbol _ | sum _ _ | difference _ _ | product _ _ | quotient _ _ | power _ _ | call _ _ => rfl
    | symbol _ | sum _ _ | difference _ _ | product _ _ | quotient _ _ | power _ _ | call _ _ =>
      cases hl

/-- Negation takes a term in normal form to its opposite. -/
theorem neg_spec {t : Term α} (h : t.Normal) : Negated t (neg t).term := by
  unfold neg
  fun_cases scale (-1) t with
  | case1 v =>
    unfold foldOr
    split
    · exact .constant v
    · exact .multiple _
  | case2 d t =>
    rw [scaleBy_of_ne SymmetricScalar.negOne_ne_zero SymmetricScalar.negOne_ne_one]
    split
    · exact scale_opposite h.2.2
    · exact .multiple _
  | case3 t hconst hmultiple =>
    rw [scaleBy_of_ne SymmetricScalar.negOne_ne_zero SymmetricScalar.negOne_ne_one]
    split
    · next r hr =>
      obtain ⟨l, rfl, hl⟩ := reciprocal?_eq_some hr
      rw [div_negOne h.2.2 hl]
      exact .reciprocal r hl
    · exact .multiple _

end Simplified

namespace Term

variable {α : Type} [Scalar α] [SymmetricScalar α]

omit [SymmetricScalar α] in
theorem dividesByZero_of_negated {s t : Term α} (h : Negated s t) :
    t.dividesByZero = s.dividesByZero := by
  cases h with
  | constant v => rfl
  | multiple => rfl
  | dropped d _ => rfl
  | coefficient => rfl
  | reciprocal r hl =>
    have hone := dividesByZero_of_isConst (isConst_of_isValue hl)
    simp only [dividesByZero, hone]

theorem isValue_zero_of_negated {s t : Term α} (h : Negated s t) (hs : s.isValue 0 = false) :
    t.isValue 0 = false := by
  cases h with
  | constant v => exact (SymmetricScalar.negOne_mul_eq_zero v).trans hs
  | multiple => rfl
  | dropped d hconst => exact isValue_of_not_isConst 0 hconst
  | coefficient => rfl
  | reciprocal => rfl

end Term

end Fluxion
