import Fluxion.Proofs.Term.Value
import Fluxion.Term.Text

/-!
# Terms of the same value

Two terms have the same value if no field, no assignment and no reading of the powers and functions
tells them apart. Where a term has no value, neither has the other. Products may be regrouped from
the left, and a minus sign may be moved to the front.
-/

namespace Fluxion

/-- An interpretation that reads equal numbers as equal, one as one, and a number with the opposite
sign as the opposite. Powers and functions may be anything. -/
structure Interpretation.Signed {α K : Type} [Scalar α] [Field K] (m : Interpretation α K) :
    Prop where
  number_one : m.number 1 = 1
  number_neg {v : α} : Scalar.isFinite v = true → m.number (-v) = -m.number v
  number_congr {v w : α} : (v == w) = true → m.number v = m.number w
  power_congr {v w : α} (u : K) : (v == w) = true → m.power u v = m.power u w

/-- Numbers that are proper if and only if their opposites are. -/
class SignedScalar (α : Type) [Scalar α] : Prop where
  isFinite_one : Scalar.isFinite (1 : α) = true
  isFinite_neg (v : α) : Scalar.isFinite (-v) = Scalar.isFinite v
  isFinite_congr {v w : α} : (v == w) = true → Scalar.isFinite v = Scalar.isFinite w

namespace Term

variable {α : Type} [Scalar α]

/-- The two terms have the same value, or both have none, whatever the numbers, powers, functions
and symbols are. -/
def SameValue (s t : Term α) : Prop :=
  ∀ (K : Type) [Field K] (m : Interpretation α K), m.Signed → ∀ env : String → K,
    s.eval? m env = t.eval? m env

namespace SameValue

variable {s t u l l' r r' : Term α}

theorem refl (t : Term α) : SameValue t t := fun _ _ _ _ _ => rfl

theorem symm (h : SameValue s t) : SameValue t s :=
  fun K _ m hm env => (h K m hm env).symm

theorem trans (hst : SameValue s t) (htu : SameValue t u) : SameValue s u :=
  fun K _ m hm env => (hst K m hm env).trans (htu K m hm env)

theorem sum (hl : SameValue l' l) (hr : SameValue r' r) : SameValue (.sum l' r') (.sum l r) := by
  intro K _ m hm env
  simp only [eval?, hl K m hm env, hr K m hm env]

theorem difference (hl : SameValue l' l) (hr : SameValue r' r) :
    SameValue (.difference l' r') (.difference l r) := by
  intro K _ m hm env
  simp only [eval?, hl K m hm env, hr K m hm env]

theorem product (hl : SameValue l' l) (hr : SameValue r' r) :
    SameValue (.product l' r') (.product l r) := by
  intro K _ m hm env
  simp only [eval?, hl K m hm env, hr K m hm env]

theorem quotient (hl : SameValue l' l) (hr : SameValue r' r) :
    SameValue (.quotient l' r') (.quotient l r) := by
  intro K _ m hm env
  simp only [eval?, hl K m hm env, hr K m hm env]

theorem power {b b' : Term α} {e e' : α} (hb : SameValue b' b) (he : (e' == e) = true) :
    SameValue (.power b' e') (.power b e) := by
  intro K _ m hm env
  simp only [eval?, hb K m hm env, hm.power_congr _ he]

theorem call {a a' : Term α} (f : Func) (ha : SameValue a' a) :
    SameValue (.call f a') (.call f a) := by
  intro K _ m hm env
  simp only [eval?, ha K m hm env]

end SameValue

/-- Products are associative. -/
theorem sameValue_product_product (a b c : Term α) :
    SameValue (product (product a b) c) (product a (product b c)) := by
  intro K _ m _ env
  simp only [eval?]
  cases a.eval? m env with
  | none => rfl
  | some x =>
    cases b.eval? m env with
    | none => rfl
    | some y =>
      cases c.eval? m env with
      | none => rfl
      | some z => exact congrArg some (mul_assoc x y z)

/-- A factor may be taken into the numerator. -/
theorem sameValue_quotient_product (a b c : Term α) :
    SameValue (quotient (product a b) c) (product a (quotient b c)) := by
  intro K _ m _ env
  simp only [eval?]
  cases a.eval? m env with
  | none => rfl
  | some x =>
    cases b.eval? m env with
    | none => rfl
    | some y =>
      cases c.eval? m env with
      | none => rfl
      | some z =>
        by_cases hz : z = 0
        · simp [hz]
        · simp [hz, mul_div_assoc]

section Signs

variable [SignedScalar α]

/-- The constant minus one has the value `-1`. -/
theorem eval?_negOne {K : Type} [Field K] {m : Interpretation α K} (hm : m.Signed)
    (env : String → K) : (const (-1) : Term α).eval? m env = some (-1) := by
  rw [eval?_const, SignedScalar.isFinite_neg, hm.number_neg SignedScalar.isFinite_one,
    hm.number_one]
  exact ⟨SignedScalar.isFinite_one, rfl⟩

theorem sameValue_const {v w : α} (h : (v == w) = true) :
    SameValue (const v) (const w : Term α) := by
  intro K _ m hm env
  simp only [eval?, SignedScalar.isFinite_congr h, hm.number_congr h]

/-- The sign of a number may be written as a factor. -/
theorem sameValue_const_neg (v : α) :
    SameValue (const (-v)) (product (const (-1)) (const v) : Term α) := by
  intro K _ m hm env
  have hone := eval?_negOne hm env
  by_cases hv : Scalar.isFinite v = true
  · have hneg : (const (-v) : Term α).eval? m env = some (-m.number v) := by
      rw [eval?_const, SignedScalar.isFinite_neg]
      exact ⟨hv, hm.number_neg hv⟩
    have hconst : (const v : Term α).eval? m env = some (m.number v) := eval?_const.2 ⟨hv, rfl⟩
    rw [hneg, eq_comm, eval?_product]
    exact ⟨-1, hone, m.number v, hconst, neg_one_mul _⟩
  · have hneg : ¬ Scalar.isFinite (-v) = true := by rwa [SignedScalar.isFinite_neg]
    simp [eval?, hv, hneg]

/-- Two minus signs cancel. -/
theorem sameValue_negOne_negOne (t : Term α) :
    SameValue (product (const (-1)) (product (const (-1)) t)) t := by
  intro K _ m hm env
  have hone := eval?_negOne hm env
  cases ht : t.eval? m env with
  | none => simp [eval?, ht]
  | some x =>
    rw [eval?_product]
    exact ⟨-1, hone, -1 * x, eval?_product.2 ⟨-1, hone, x, ht, rfl⟩, by ring⟩

/-- Adding the opposite is subtracting. -/
theorem sameValue_sum_neg (a b : Term α) :
    SameValue (sum a (product (const (-1)) b)) (difference a b) := by
  intro K _ m hm env
  have hone := eval?_negOne hm env
  simp only [eval?] at hone ⊢
  rw [hone]
  cases a.eval? m env with
  | none => rfl
  | some x =>
    cases b.eval? m env with
    | none => rfl
    | some y => exact congrArg some (by ring : x + -1 * y = x - y)

/-- Subtracting the opposite is adding. -/
theorem sameValue_difference_neg (a b : Term α) :
    SameValue (difference a (product (const (-1)) b)) (sum a b) := by
  intro K _ m hm env
  have hone := eval?_negOne hm env
  simp only [eval?] at hone ⊢
  rw [hone]
  cases a.eval? m env with
  | none => rfl
  | some x =>
    cases b.eval? m env with
    | none => rfl
    | some y => exact congrArg some (by ring : x - -1 * y = x + y)

/-- A term is minus one times what is left of it without its minus sign. -/
theorem sameValue_of_withoutMinus? {t s : Term α} (h : t.withoutMinus? = some s) :
    SameValue t (product (const (-1)) s) := by
  fun_induction withoutMinus? t generalizing s with
  | case1 v hneg =>
    cases h
    have hsign : SameValue (product (const (-1)) (const (-v)))
        (product (const (-1)) (product (const (-1)) (const v)) : Term α) :=
      (SameValue.refl _).product (sameValue_const_neg v)
    exact (hsign.trans (sameValue_negOne_negOne _)).symm
  | case2 => cases h
  | case3 left right hleft =>
    cases h
    refine SameValue.product ?_ (.refl _)
    cases left with
    | const w => exact sameValue_const hleft
    | symbol _ | sum _ _ | difference _ _ | product _ _ | quotient _ _ | power _ _ | call _ _ =>
      cases hleft
  | case4 left right _ ih =>
    obtain ⟨l, hl, rfl⟩ := Option.map_eq_some_iff.1 h
    exact ((ih hl).product (.refl _)).trans (sameValue_product_product _ _ _)
  | case5 left right ih =>
    obtain ⟨l, hl, rfl⟩ := Option.map_eq_some_iff.1 h
    exact ((ih hl).quotient (.refl _)).trans (sameValue_quotient_product _ _ _)
  | case6 => cases h

/-- A sum of two terms, or their difference. -/
def signed (minus : Bool) (left right : Term α) : Term α :=
  if minus then difference left right else sum left right

/-- The minus sign of a right operand may be merged into a plus. -/
theorem sameValue_sum_unsigned (left right : Term α) :
    SameValue (signed right.hasMinus left right.unsigned) (sum left right) := by
  rw [hasMinus, unsigned]
  cases h : right.withoutMinus? with
  | none => exact .refl _
  | some s =>
    have hright := sameValue_of_withoutMinus? h
    exact (((SameValue.refl left).sum hright).trans (sameValue_sum_neg left s)).symm

/-- The minus sign of a right operand may be merged into a minus. -/
theorem sameValue_difference_unsigned (left right : Term α) :
    SameValue (signed (!right.hasMinus) left right.unsigned) (difference left right) := by
  rw [hasMinus, unsigned]
  cases h : right.withoutMinus? with
  | none => exact .refl _
  | some s =>
    have hright := sameValue_of_withoutMinus? h
    exact (((SameValue.refl left).difference hright).trans (sameValue_difference_neg left s)).symm

end Signs

end Term

end Fluxion
