import Fluxion.Proofs.Scalar.Binary64
import Fluxion.Proofs.Term.NormalForm

/-!
# Where coefficients stand

What the identities leave of constants, node by node: they have been worked out wherever the result
is a proper number, zeros and ones are gone, and the coefficient of a product stands on its left,
before factors that have none of their own. A simplified term is in normal form, and this is normal
form read as a law of its nodes. Only for products of two constants normal form says less than the
law does: there it takes proper constants to see that a coefficient zero or one is gone.
-/

namespace Fluxion

namespace Term

variable {α : Type}

/-- The term and all terms in it. -/
def nodes : Term α → List (Term α)
  | const v => [const v]
  | symbol name => [symbol name]
  | sum l r => sum l r :: (l.nodes ++ r.nodes)
  | difference l r => difference l r :: (l.nodes ++ r.nodes)
  | product l r => product l r :: (l.nodes ++ r.nodes)
  | quotient l r => quotient l r :: (l.nodes ++ r.nodes)
  | power b e => power b e :: b.nodes
  | call f a => call f a :: a.nodes

variable [Scalar α]

open Simplified (reciprocal? factorRank outOfOrder)

/-- Whether every constant of the term is a proper number. Exponents may be anything. -/
def ConstantsProper : Term α → Prop
  | const v => Scalar.isFinite v = true
  | symbol _ => True
  | sum l r | difference l r | product l r | quotient l r => l.ConstantsProper ∧ r.ConstantsProper
  | power b _ => b.ConstantsProper
  | call _ a => a.ConstantsProper

theorem hereditary_constantsProper : Hereditary (ConstantsProper (α := α)) fun _ => True where
  const h := h
  sum := .rfl
  difference := .rfl
  product := .rfl
  quotient := .rfl
  power := (and_iff_left trivial).symm
  call := .rfl

/-! ## The law of nodes -/

/-- The operands are not constants that an operation makes a proper number of. -/
def Unfoldable (f : α → α → α) (l r : Term α) : Prop :=
  ∀ v w, l = const v → r = const w → Scalar.isFinite (f v w) = false

/-- What holds of the operands of a product. -/
structure Gathered (l r : Term α) : Prop where
  /-- A constant stands on the right only beside another one that it cannot be multiplied with. -/
  constantRight (w : α) : r = const w → ∃ v, l = const v ∧ Scalar.isFinite (v * w) = false
  coefficient (c : α) : l = const c → (c == 0) = false ∧ (c == 1) = false
  beforeReciprocal (c : α) (a b : Term α) : l = const c → r = quotient a b → a.isValue 1 = false
  /-- Two coefficients stand side by side only if they cannot be multiplied. -/
  beforeCoefficient (c d : α) (t : Term α) : l = const c → r = product (const d) t →
    Scalar.isFinite (c * d) = false
  /-- Without a coefficient on the left, no factor has one. -/
  noCoefficient (d : α) (t : Term α) : l.isConst = false →
    l ≠ product (const d) t ∧ r ≠ product (const d) t
  noReciprocal (a b : Term α) : l.isConst = false → a.isValue 1 = true →
    l ≠ quotient a b ∧ r ≠ quotient a b
  inOrder (i j : Nat) : l.isConst = false → factorRank l = some i → factorRank r = some j → i ≤ j

/-- What holds of a node whose constants are settled: no zero is added, coefficients are gathered, no
divisor, factor or exponent is one, no exponent is zero, a divisor that is not zero divides neither
zero nor an equal term, and no constants are left that can be worked out. -/
def Settled : Term α → Prop
  | const _ | symbol _ | call _ _ => True
  | sum l r => l.isValue 0 = false ∧ r.isValue 0 = false ∧ Unfoldable (· + ·) l r
  | difference l r => l.isValue 0 = false ∧ r.isValue 0 = false ∧ Unfoldable (· - ·) l r
  | product l r => Gathered l r
  | quotient l r => r.isValue 1 = false ∧ (r.isValue 0 = false →
      l.isValue 0 = false ∧ (l == r) = false ∧ Unfoldable (· / ·) l r)
  | power b e => (e == 0) = false ∧ (e == 1) = false ∧
      ∀ v, b = const v → Scalar.isFinite (Scalar.pow v e) = false

/-! ## Plain nodes are settled -/

theorem unfoldable_of_not_foldable {f : α → α → α} {l r : Term α} (h : foldable f l r = false) :
    Unfoldable f l r := by
  rintro v w rfl rfl
  exact h

theorem settled_sum {l r : Term α} (h : plainSum l r = true) : (sum l r).Settled := by
  simp only [plainSum, Bool.and_eq_true, Bool.not_eq_true'] at h
  exact ⟨h.1.2, h.2, unfoldable_of_not_foldable h.1.1⟩

theorem settled_difference {l r : Term α} (h : plainDifference l r = true) :
    (difference l r).Settled := by
  simp only [plainDifference, Bool.and_eq_true, Bool.not_eq_true'] at h
  exact ⟨h.1.2, h.2, unfoldable_of_not_foldable h.1.1⟩

theorem settled_quotient {l r : Term α} (h : plainQuotient l r = true) :
    (quotient l r).Settled := by
  simp only [plainQuotient, Bool.and_eq_true, Bool.not_eq_true', Bool.or_eq_true] at h
  refine ⟨h.1, ?_⟩
  intro hzero
  rcases h.2 with hzero' | hplain
  · rw [hzero] at hzero'
    cases hzero'
  · simp only [Bool.or_eq_false_iff] at hplain
    exact ⟨hplain.1.2, hplain.2, unfoldable_of_not_foldable hplain.1.1⟩

theorem settled_power {b : Term α} {e : α} (h : plainPower b e = true) : (power b e).Settled := by
  simp only [plainPower, Bool.and_eq_true, Bool.not_eq_true'] at h
  refine ⟨h.1.1, h.1.2, ?_⟩
  rintro v rfl
  simpa using h.2

theorem isValue_of_reciprocal?_eq_none {a b : Term α} (h : reciprocal? (quotient a b) = none) :
    a.isValue 1 = false := by
  cases hone : a.isValue 1 with
  | false => rfl
  | true =>
    rw [reciprocal?, if_pos hone] at h
    cases h

/-- A product with a coefficient. Two constants are only left if their product is not a proper number,
and then none of them is zero or one. -/
theorem gathered_multiple [UnitalScalar α] {c : α} {t : Term α} (ht : t.ConstantsProper)
    (h : plainMultiple c t = true) : Gathered (const c) t where
  constantRight w hw := by
    subst hw
    exact ⟨c, rfl, by simpa [plainMultiple] using h⟩
  coefficient d hd := by
    cases hd
    cases t with
    | const v =>
      have hinfinite : Scalar.isFinite (c * v) = false := by simpa [plainMultiple] using h
      refine ⟨Bool.eq_false_iff.2 fun hzero => ?_, Bool.eq_false_iff.2 fun hone => ?_⟩
      · rw [UnitalScalar.isFinite_zero_mul hzero ht] at hinfinite
        cases hinfinite
      · rw [UnitalScalar.isFinite_one_mul hone ht] at hinfinite
        cases hinfinite
    | product l r =>
      cases l <;>
        simp only [plainMultiple, Bool.and_eq_true, Bool.not_eq_true'] at h <;>
        exact h.1
    | symbol _ | sum _ _ | difference _ _ | quotient _ _ | power _ _ | call _ _ =>
      simp only [plainMultiple, Bool.and_eq_true, Bool.not_eq_true'] at h
      exact h.1
  beforeReciprocal d a b hd ht := by
    subst ht
    simp only [plainMultiple, Bool.and_eq_true, Option.isNone_iff_eq_none] at h
    exact isValue_of_reciprocal?_eq_none h.2
  beforeCoefficient d e u hd ht := by
    cases hd
    subst ht
    simp only [plainMultiple, Bool.and_eq_true, Bool.not_eq_true'] at h
    exact h.2
  noCoefficient d u hconst := by cases hconst
  noReciprocal a b hconst := by cases hconst
  inOrder i j hconst := by cases hconst

omit [Scalar α] in
theorem ne_product_of_isFactor {t u : Term α} {d : α} (h : t.isFactor = true) :
    t ≠ product (const d) u := by
  rintro rfl
  cases h

theorem ne_quotient_of_not_reciprocal {t a b : Term α} (h : reciprocal? t = none)
    (ha : a.isValue 1 = true) : t ≠ quotient a b := by
  rintro rfl
  rw [isValue_of_reciprocal?_eq_none h] at ha
  cases ha

omit [Scalar α] in
theorem le_of_not_outOfOrder {l r : Term α} {i j : Nat} (h : outOfOrder l r = false)
    (hl : factorRank l = some i) (hr : factorRank r = some j) : i ≤ j := by
  rw [outOfOrder, hl, hr] at h
  exact Nat.le_of_not_lt (of_decide_eq_false h)

/-- A product of two factors without coefficients. -/
theorem gathered_factors {l r : Term α} (hconst : l.isConst = false)
    (h : plainProduct l r = true) : Gathered l r := by
  rw [Simplified.plainProduct_of_not_isConst r hconst] at h
  simp only [Bool.and_eq_true, Bool.not_eq_true', Option.isNone_iff_eq_none] at h
  obtain ⟨⟨⟨⟨hl, hr⟩, hlnone⟩, hrnone⟩, horder⟩ := h
  have hnot (c : α) : l ≠ const c := by
    rintro rfl
    cases hconst
  exact {
    constantRight := fun w hw => by
      subst hw
      cases hr
    coefficient := fun c hc => absurd hc (hnot c)
    beforeReciprocal := fun c _ _ hc => absurd hc (hnot c)
    beforeCoefficient := fun c _ _ hc => absurd hc (hnot c)
    noCoefficient := fun _ _ _ => ⟨ne_product_of_isFactor hl, ne_product_of_isFactor hr⟩
    noReciprocal := fun _ _ _ ha =>
      ⟨ne_quotient_of_not_reciprocal hlnone ha, ne_quotient_of_not_reciprocal hrnone ha⟩
    inOrder := fun _ _ _ => le_of_not_outOfOrder horder }

theorem settled_product [UnitalScalar α] {l r : Term α} (hr : r.ConstantsProper)
    (h : plainProduct l r = true) : (product l r).Settled := by
  cases l with
  | const c => exact gathered_multiple hr h
  | symbol _ | sum _ _ | difference _ _ | product _ _ | quotient _ _ | power _ _ | call _ _ =>
    exact gathered_factors rfl h

/-- All nodes of a term in normal form are settled. -/
theorem settled_of_normal [UnitalScalar α] {t : Term α} (hnormal : t.Normal)
    (hproper : t.ConstantsProper) : ∀ s ∈ t.nodes, s.Settled := by
  have hboth {s l r : Term α} (hs : s.Settled) (hl : ∀ u ∈ l.nodes, u.Settled)
      (hr : ∀ u ∈ r.nodes, u.Settled) : ∀ u ∈ s :: (l.nodes ++ r.nodes), u.Settled := by
    rw [List.forall_mem_cons, List.forall_mem_append]
    exact ⟨hs, hl, hr⟩
  induction t with
  | const _ | symbol _ =>
    intro s hs
    rw [List.mem_singleton.1 hs]
    trivial
  | sum l r ihl ihr =>
    obtain ⟨hl, hr, hplain⟩ := hnormal
    exact hboth (settled_sum hplain) (ihl hl hproper.1) (ihr hr hproper.2)
  | difference l r ihl ihr =>
    obtain ⟨hl, hr, hplain⟩ := hnormal
    exact hboth (settled_difference hplain) (ihl hl hproper.1) (ihr hr hproper.2)
  | product l r ihl ihr =>
    obtain ⟨hl, hr, hplain⟩ := hnormal
    exact hboth (settled_product hproper.2 hplain) (ihl hl hproper.1) (ihr hr hproper.2)
  | quotient l r ihl ihr =>
    obtain ⟨hl, hr, hplain⟩ := hnormal
    exact hboth (settled_quotient hplain) (ihl hl hproper.1) (ihr hr hproper.2)
  | power b e ih => exact List.forall_mem_cons.2 ⟨settled_power hnormal.2, ih hnormal.1 hproper⟩
  | call f a ih => exact List.forall_mem_cons.2 ⟨trivial, ih hnormal hproper⟩

/-- In a simplified term with proper constants, the constants of every node are settled. -/
theorem simplify_settles_constants [ProperScalar α] [UnitalScalar α] {t : Term α}
    (h : t.ConstantsProper) : ∀ s ∈ t.simplify.nodes, s.Settled :=
  settled_of_normal (Simplified.normal_ofTerm t) (hereditary_constantsProper.simplify h)

/-- In `(1/y) * (1e200 * (x * 1e200))` the coefficients come to the front, where they stay side by
side because their product overflows, and the reciprocal becomes a quotient. -/
theorem simplify_settles_constants_overflow :
    let t : Term Float := .product (.quotient (.const 1) (.symbol "y"))
      (.product (.const 1e200) (.product (.symbol "x") (.const 1e200)))
    t.ConstantsProper ∧
    (t.simplify == .product (.const 1e200)
      (.product (.const 1e200) (.quotient (.symbol "x") (.symbol "y")))) = true ∧
    ∀ s ∈ t.simplify.nodes, s.Settled := by
  intro t
  have hproper : t.ConstantsProper := by
    have hone : Scalar.isFinite (1 : Float) = true := by decide +kernel
    have hlarge : Scalar.isFinite (1e200 : Float) = true := by decide +kernel
    exact ⟨⟨hone, trivial⟩, hlarge, trivial, hlarge⟩
  exact ⟨hproper, by decide +kernel, simplify_settles_constants hproper⟩

end Term

end Fluxion
