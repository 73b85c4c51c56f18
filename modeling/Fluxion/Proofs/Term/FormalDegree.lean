import Fluxion.Proofs.Term.DerivativeValue
import Fluxion.Proofs.Term.NormalForm
import Fluxion.Proofs.Term.OfExprProper

/-!
# Degrees of polynomials

A polynomial that is differentiated more often than its degree becomes zero. Like terms are not
collected and products are not multiplied out, so it is not the polynomial that a term stands for
that says so, but the term as it is written. What carries the argument is a bound on its degree:
differentiation lowers the bound by one, the identities and canonical order never raise it, and a
term in normal form whose degree is below zero is the constant zero. The degree of zero is below
every bound, and so is that of a product with zero, whatever the other factor is: the rule for
powers makes `0 * b ^ -1` of `b ^ 0`, and that is no polynomial.
-/

namespace Fluxion

namespace Term

open ExactScalar (toReal)
open UnboundedScalar (toReal_add toReal_sub toReal_mul toReal_pow)

variable {α : Type} [ExactScalar α] {var : String} {n m : ℕ}

/-- Sums, differences and products of constants, symbols and powers with natural exponents. -/
def IsPolynomial : Term α → Prop
  | const _ | symbol _ => True
  | sum l r | difference l r | product l r => l.IsPolynomial ∧ r.IsPolynomial
  | power b e => b.IsPolynomial ∧ ∃ k : ℕ, toReal e = k
  | quotient _ _ | call _ _ => False

/-- The degree of a polynomial in a variable, as the polynomial is written. -/
noncomputable def formalDegree (var : String) : Term α → ℕ
  | symbol name => if name == var then 1 else 0
  | sum l r | difference l r => max (l.formalDegree var) (r.formalDegree var)
  | product l r => l.formalDegree var + r.formalDegree var
  | power b e => b.formalDegree var * ⌊toReal e⌋₊
  | const _ | quotient _ _ | call _ _ => 0

/-- The degree of the term in a variable is seen to be below `n`. Zero, and what is multiplied with
zero, has a degree below 0. -/
def DegreeBelow (var : String) : Term α → ℕ → Prop
  | const v, n => toReal v = 0 ∨ 0 < n
  | symbol name, n => (if name == var then 1 else 0) < n
  | sum l r, n | difference l r, n => l.DegreeBelow var n ∧ r.DegreeBelow var n
  | product l r, n => l.DegreeBelow var 0 ∨ r.DegreeBelow var 0 ∨
      ∃ i j, l.DegreeBelow var (i + 1) ∧ r.DegreeBelow var (j + 1) ∧ i + j < n
  | power b e, n => ∃ k : ℕ, toReal e = k ∧
      (b.DegreeBelow var 0 ∧ k ≠ 0 ∨ ∃ i, b.DegreeBelow var (i + 1) ∧ i * k < n)
  | quotient _ _, _ | call _ _, _ => False

namespace DegreeBelow

theorem mono {t : Term α} (h : t.DegreeBelow var n) (hle : n ≤ m) : t.DegreeBelow var m := by
  induction t with
  | const v => exact h.imp_right fun hn => Nat.lt_of_lt_of_le hn hle
  | symbol name => exact Nat.lt_of_lt_of_le h hle
  | sum l r ihl ihr | difference l r ihl ihr => exact ⟨ihl h.1, ihr h.2⟩
  | product l r _ _ =>
    rcases h with hl | hr | ⟨i, j, hl, hr, hij⟩
    · exact .inl hl
    · exact .inr (.inl hr)
    · exact .inr (.inr ⟨i, j, hl, hr, Nat.lt_of_lt_of_le hij hle⟩)
  | power b e _ =>
    obtain ⟨k, he, hb | ⟨i, hb, hik⟩⟩ := h
    · exact ⟨k, he, .inl hb⟩
    · exact ⟨k, he, .inr ⟨i, hb, Nat.lt_of_lt_of_le hik hle⟩⟩
  | quotient _ _ _ _ => exact h.elim
  | call _ _ _ => exact h.elim

theorem const_succ (v : α) : (const v).DegreeBelow var (n + 1) := .inr n.succ_pos

theorem const_zero : (const (0 : α)).DegreeBelow var n := .inl ExactScalar.toReal_zero

/-- A coefficient does not raise the degree. -/
theorem multiple (c : α) {t : Term α} (h : t.DegreeBelow var n) :
    (product (const c) t).DegreeBelow var n := by
  cases n with
  | zero => exact .inr (.inl h)
  | succ n => exact .inr (.inr ⟨0, n, const_succ c, h, by omega⟩)

/-- The degree of a product whose factors may be zero. -/
theorem product {l r : Term α} {i j : ℕ} (hl : l.DegreeBelow var i) (hr : r.DegreeBelow var j)
    (hij : i + j ≤ n + 1) : (product l r).DegreeBelow var n := by
  cases i with
  | zero => exact .inl hl
  | succ i =>
    cases j with
    | zero => exact .inr (.inl hr)
    | succ j => exact .inr (.inr ⟨i, j, hl, hr, by omega⟩)

end DegreeBelow

/-- The degree of a polynomial bounds itself. -/
theorem IsPolynomial.degreeBelow {t : Term α} (var : String) (h : t.IsPolynomial) :
    t.DegreeBelow var (t.formalDegree var + 1) := by
  induction t with
  | const v => exact .const_succ v
  | symbol name => exact Nat.lt_succ_self _
  | sum l r ihl ihr | difference l r ihl ihr =>
    exact ⟨(ihl h.1).mono (Nat.succ_le_succ (le_max_left _ _)),
      (ihr h.2).mono (Nat.succ_le_succ (le_max_right _ _))⟩
  | product l r ihl ihr => exact .inr (.inr ⟨_, _, ihl h.1, ihr h.2, Nat.lt_succ_self _⟩)
  | power b e ih =>
    obtain ⟨hb, k, he⟩ := h
    refine ⟨k, he, .inr ⟨_, ih hb, ?_⟩⟩
    rw [formalDegree, he, Nat.floor_natCast]
    exact Nat.lt_succ_self _
  | quotient _ _ _ _ => exact h.elim
  | call _ _ _ => exact h.elim

variable [UnboundedScalar α]

theorem isValue_zero_iff {v : α} : (const v).isValue 0 = true ↔ toReal v = 0 := by
  rw [← ExactScalar.toReal_zero (α := α)]
  exact UnboundedScalar.beq_iff

theorem exists_const_of_isValue {t : Term α} (h : t.isValue 0 = true) :
    ∃ c, t = const c ∧ toReal c = 0 := by
  cases t with
  | const c => exact ⟨c, rfl, isValue_zero_iff.1 h⟩
  | symbol _ | sum _ _ | difference _ _ | product _ _ | quotient _ _ | power _ _ | call _ _ => cases h

theorem DegreeBelow.of_isValue {t : Term α} (h : t.isValue 0 = true) : t.DegreeBelow var n := by
  obtain ⟨c, rfl, hc⟩ := exists_const_of_isValue h
  exact .inl hc

/-! ## Derivatives -/

theorem DegreeBelow.powerDerivative {b : Term α} {e : α} {i k : ℕ} (he : toReal e = (k + 1 : ℕ))
    (hb : b.DegreeBelow var (i + 1)) : (powerDerivative b e).DegreeBelow var (i * k + 1) := by
  refine .multiple e ⟨k, ?_, .inr ⟨i, hb, Nat.lt_succ_self _⟩⟩
  rw [toReal_sub, he, ExactScalar.toReal_one]
  push_cast
  ring

omit [UnboundedScalar α] in
theorem DegreeBelow.powerDerivative_zero {b : Term α} {e : α} (he : toReal e = (0 : ℕ)) :
    (Term.powerDerivative b e).DegreeBelow var 0 :=
  .inl (.inl (by simpa using he))

/-- Differentiation lowers the degree. -/
theorem DegreeBelow.derivative {t : Term α} (h : t.DegreeBelow var n) :
    (t.derivative var).DegreeBelow var (n - 1) := by
  induction t generalizing n with
  | const v => exact const_zero
  | symbol name =>
    unfold Term.derivative
    by_cases hname : (name == var) = true
    · simp only [DegreeBelow, hname, if_true] at h ⊢
      exact .inr (by omega)
    · simp only [hname]
      exact const_zero
  | sum l r ihl ihr | difference l r ihl ihr => exact ⟨ihl h.1, ihr h.2⟩
  | product l r ihl ihr =>
    rcases h with hl | hr | ⟨i, j, hl, hr, hij⟩
    · exact ⟨.inl (ihl hl), .inl hl⟩
    · exact ⟨.inr (.inl hr), .inr (.inl (ihr hr))⟩
    · exact ⟨.product (ihl hl) hr (by omega), .product hl (ihr hr) (by omega)⟩
  | power b e ih =>
    obtain ⟨k, he, h⟩ := h
    unfold Term.derivative
    cases k with
    | zero =>
      split
      · exact (powerDerivative_zero he).mono (Nat.zero_le _)
      · exact .inl (powerDerivative_zero he)
    | succ k =>
      split
      · next hsym =>
        obtain rfl := eq_symbol_of_isSymbol hsym
        rcases h with ⟨hb, -⟩ | ⟨i, hb, hik⟩
        · exact absurd hb (Nat.not_lt_zero _)
        · -- the base is the variable, so its degree, which `i` bounds, is one
          have hi : 0 < i := by simpa [DegreeBelow] using hb
          exact (DegreeBelow.powerDerivative he hb).mono (by rw [Nat.mul_succ] at hik; omega)
      · rcases h with ⟨hb, -⟩ | ⟨i, hb, hik⟩
        · exact .inr (.inl (ih hb))
        · exact .product (.powerDerivative he hb) (ih hb) (by rw [Nat.mul_succ] at hik; omega)
  | quotient _ _ _ _ => exact h.elim
  | call _ _ _ => exact h.elim

/-! ## Zero -/

theorem plainMultiple_eq_false {c : α} (hc : toReal c = 0) (t : Term α) :
    plainMultiple c t = false := by
  have hzero : (c == 0) = true := isValue_zero_iff.2 hc
  unfold plainMultiple
  split
  · simp [UnboundedScalar.isFinite]
  · simp [hzero]
  · simp [hzero]

theorem plainProduct_const_right (l : Term α) (c : α) : plainProduct l (const c) = false := by
  cases l with
  | const d => simp [plainProduct, plainMultiple, UnboundedScalar.isFinite]
  | symbol _ | sum _ _ | difference _ _ | product _ _ | quotient _ _ | power _ _ | call _ _ =>
    simp [plainProduct, isFactor]

/-- A term in normal form whose degree is below 0 is zero. -/
theorem DegreeBelow.isValue_zero {t : Term α} (h : t.DegreeBelow var 0) (hnormal : t.Normal) :
    t.isValue 0 = true := by
  induction t with
  | const c => exact isValue_zero_iff.2 (h.resolve_right (Nat.lt_irrefl 0))
  | symbol name => exact absurd h (Nat.not_lt_zero _)
  | sum l r ihl _ =>
    obtain ⟨hl, hr, hplain⟩ := hnormal
    simp [plainSum, ihl h.1 hl] at hplain
  | difference l r ihl _ =>
    obtain ⟨hl, hr, hplain⟩ := hnormal
    simp [plainDifference, ihl h.1 hl] at hplain
  | product l r ihl ihr =>
    obtain ⟨hl, hr, hplain⟩ := hnormal
    rcases h with hlzero | hrzero | ⟨i, j, -, -, hij⟩
    · obtain ⟨c, rfl, hc⟩ := exists_const_of_isValue (ihl hlzero hl)
      rw [plainProduct, plainMultiple_eq_false hc] at hplain
      cases hplain
    · obtain ⟨c, rfl, -⟩ := exists_const_of_isValue (ihr hrzero hr)
      rw [plainProduct_const_right] at hplain
      cases hplain
    · exact absurd hij (Nat.not_lt_zero _)
  | power b e ih =>
    obtain ⟨hb, hplain⟩ := hnormal
    obtain ⟨k, -, ⟨hbzero, -⟩ | ⟨i, -, hik⟩⟩ := h
    · obtain ⟨c, rfl, -⟩ := exists_const_of_isValue (ih hbzero hb)
      simp [plainPower, UnboundedScalar.isFinite] at hplain
    · exact absurd hik (Nat.not_lt_zero _)
  | quotient _ _ _ _ => exact h.elim
  | call _ _ _ => exact h.elim

end Term

/-! ## Simplification and canonical order -/

namespace Simplified

open ExactScalar (toReal)
open UnboundedScalar (toReal_add toReal_sub toReal_mul toReal_pow)
open Term (DegreeBelow isValue_zero_iff exists_const_of_isValue)

variable {α : Type} [ExactScalar α] [UnboundedScalar α] {var : String} {n i j : ℕ}

/-- All constants are worked out. -/
theorem foldOr_eq (v : α) (otherwise : Simplified α) :
    foldOr v otherwise = byStep .foldConstants (.const v) := by
  unfold foldOr
  rw [if_pos (UnboundedScalar.isFinite v)]

omit [UnboundedScalar α] in
theorem degreeBelow_addNode {l r : Term α} (hl : l.DegreeBelow var n) (hr : r.DegreeBelow var n) :
    (addNode l r).term.DegreeBelow var n := by
  unfold addNode
  split
  · exact hl
  · split
    · exact hr
    · exact ⟨hl, hr⟩

theorem degreeBelow_add {l r : Term α} (hl : l.DegreeBelow var n) (hr : r.DegreeBelow var n) :
    (add l r).term.DegreeBelow var n := by
  unfold add
  split
  · next v w =>
    rw [foldOr_eq]
    refine or_iff_not_imp_right.2 fun hn => ?_
    rw [toReal_add, hl.resolve_right hn, hr.resolve_right hn, add_zero]
  · exact degreeBelow_addNode hl hr

/-- The coefficient zero settles a product at once. -/
theorem scaleBy_zero {c : α} (hc : toReal c = 0) (t : Term α) (otherwise : Simplified α) :
    scaleBy c t otherwise = byStep .multiplyZero (.const 0) := by
  have hzero : (c == 0) = true := isValue_zero_iff.2 hc
  rw [scaleBy, if_pos hzero]

theorem isValue_scale_zero {c : α} (hc : toReal c = 0) (t : Term α) :
    (scale c t).term.isValue 0 = true := by
  fun_cases scale c t with
  | case1 v =>
    rw [foldOr_eq]
    refine isValue_zero_iff.2 ?_
    rw [toReal_mul, hc, zero_mul]
  | case2 d t =>
    rw [scaleBy_zero hc]
    exact isValue_zero_iff.2 ExactScalar.toReal_zero
  | case3 t _ _ =>
    rw [scaleBy_zero hc]
    exact isValue_zero_iff.2 ExactScalar.toReal_zero

theorem isValue_scaleRight_zero (l : Term α) {c : α} (hc : toReal c = 0) :
    (scaleRight l c).term.isValue 0 = true := by
  rw [scaleRight, scaleBy_zero hc]
  exact isValue_zero_iff.2 ExactScalar.toReal_zero

theorem isValue_mul_left {l : Term α} (hl : l.isValue 0 = true) (r : Term α) :
    (mul l r).term.isValue 0 = true := by
  obtain ⟨c, rfl, hc⟩ := exists_const_of_isValue hl
  exact isValue_scale_zero hc r

theorem isValue_mul_right (l : Term α) {r : Term α} (hr : r.isValue 0 = true) :
    (mul l r).term.isValue 0 = true := by
  obtain ⟨c, rfl, hc⟩ := exists_const_of_isValue hr
  generalize heq : Term.const c = r
  fun_cases mul l r with
  | case1 d r =>
    subst heq
    rw [scale, foldOr_eq]
    refine isValue_zero_iff.2 ?_
    rw [toReal_mul, hc, mul_zero]
  | case2 d l e =>
    cases heq
    exact isValue_scaleRight_zero _ hc
  | case3 d l r hconst => exact absurd heq.symm (hconst c)
  | case4 l r _ _ =>
    subst heq
    exact isValue_scaleRight_zero l hc

omit [UnboundedScalar α] in
theorem degreeBelow_scaleBy (c : α) {t : Term α} {otherwise : Simplified α}
    (ht : t.DegreeBelow var n) (ho : otherwise.term.DegreeBelow var n) :
    (scaleBy c t otherwise).term.DegreeBelow var n := by
  unfold scaleBy
  split
  · exact .const_zero
  · split
    · exact ht
    · exact ho

omit [UnboundedScalar α] in
theorem reciprocal?_of_degreeBelow {t : Term α} (h : t.DegreeBelow var n) :
    reciprocal? t = none := by
  cases t with
  | quotient l r => exact h.elim
  | const _ | symbol _ | sum _ _ | difference _ _ | product _ _ | power _ _ | call _ _ => rfl

omit [UnboundedScalar α] in
/-- What stands behind a coefficient that is not zero. -/
theorem degreeBelow_of_multiple {c : α} {t : Term α}
    (h : (Term.product (.const c) t).DegreeBelow var n) : toReal c = 0 ∨ t.DegreeBelow var n := by
  rcases h with hc | ht | ⟨i, j, -, ht, hij⟩
  · exact .inl (hc.resolve_right (Nat.lt_irrefl 0))
  · exact .inr (ht.mono (Nat.zero_le n))
  · exact .inr (ht.mono (by omega))

theorem degreeBelow_scale (c : α) {t : Term α} (h : t.DegreeBelow var n) :
    (scale c t).term.DegreeBelow var n := by
  fun_induction scale c t with
  | case1 c v =>
    rw [foldOr_eq]
    refine h.imp_left fun hv => ?_
    rw [toReal_mul, hv, mul_zero]
  | case2 c d t ih =>
    refine degreeBelow_scaleBy c h ?_
    split
    · rcases degreeBelow_of_multiple h with hd | ht
      · exact .of_isValue (isValue_scale_zero (by rw [toReal_mul, hd, mul_zero]) t)
      · exact ih ht
    · exact .multiple c h
  | case3 c t _ _ =>
    refine degreeBelow_scaleBy c h ?_
    rw [reciprocal?_of_degreeBelow h]
    exact .multiple c h

theorem degreeBelow_scaleRight {l : Term α} (c : α) (h : l.DegreeBelow var n) :
    (scaleRight l c).term.DegreeBelow var n :=
  degreeBelow_scaleBy c h (degreeBelow_scale c h)

omit [UnboundedScalar α] in
theorem degreeBelow_mulFactors {l r : Term α} (hl : l.DegreeBelow var i)
    (hr : r.DegreeBelow var j) (hij : i + j ≤ n + 1) :
    (mulFactors l r).term.DegreeBelow var n := by
  unfold mulFactors
  simp only [reciprocal?_of_degreeBelow hl, reciprocal?_of_degreeBelow hr]
  split
  · exact .product hr hl (Nat.add_comm i j ▸ hij)
  · exact .product hl hr hij

theorem degreeBelow_mulRight {l r : Term α} (hl : l.DegreeBelow var (i + 1))
    (hr : r.DegreeBelow var (j + 1)) (hij : i + j < n) :
    (mulRight l r).term.DegreeBelow var n := by
  fun_induction mulRight l r with
  | case1 c => exact degreeBelow_scaleRight c (hl.mono (by omega))
  | case2 c r ih =>
    rcases degreeBelow_of_multiple hr with hc | hr
    · exact .of_isValue (isValue_scale_zero hc _)
    · exact degreeBelow_scale c (ih hr)
  | case3 r _ _ => exact degreeBelow_mulFactors hl hr (by omega)

theorem degreeBelow_mul {l r : Term α} (hl : l.DegreeBelow var (i + 1))
    (hr : r.DegreeBelow var (j + 1)) (hij : i + j < n) : (mul l r).term.DegreeBelow var n := by
  fun_induction mul l r with
  | case1 c r => exact degreeBelow_scale c (hr.mono (by omega))
  | case2 c l d => exact degreeBelow_scaleRight d (hl.mono (by omega))
  | case3 c l r _ ih =>
    rcases degreeBelow_of_multiple hl with hc | hl
    · exact .of_isValue (isValue_scale_zero hc _)
    · exact degreeBelow_scale c (ih hl hr)
  | case4 l r _ _ => exact degreeBelow_mulRight hl hr hij

theorem degreeBelow_neg {t : Term α} (h : t.DegreeBelow var n) :
    (neg t).term.DegreeBelow var n := degreeBelow_scale (-1) h

theorem degreeBelow_subNode {l r : Term α} (hl : l.DegreeBelow var n) (hr : r.DegreeBelow var n) :
    (subNode l r).term.DegreeBelow var n := by
  unfold subNode
  split
  · exact hl
  · split
    · exact degreeBelow_neg hr
    · exact ⟨hl, hr⟩

theorem degreeBelow_sub {l r : Term α} (hl : l.DegreeBelow var n) (hr : r.DegreeBelow var n) :
    (sub l r).term.DegreeBelow var n := by
  unfold sub
  split
  · next v w =>
    rw [foldOr_eq]
    refine or_iff_not_imp_right.2 fun hn => ?_
    rw [toReal_sub, hl.resolve_right hn, hr.resolve_right hn, sub_zero]
  · exact degreeBelow_subNode hl hr

theorem degreeBelow_pow {b : Term α} {e : α} (h : (Term.power b e).DegreeBelow var n) :
    (pow b e).term.DegreeBelow var n := by
  obtain ⟨k, he, hk⟩ := id h
  unfold pow
  split
  · next hzero =>
    have hreal : (k : ℝ) = 0 := he ▸ isValue_zero_iff.1 hzero
    obtain rfl : k = 0 := by exact_mod_cast hreal
    rcases hk with ⟨-, hk⟩ | ⟨i, -, hik⟩
    · exact absurd rfl hk
    · exact .inr (by omega)
  · split
    · next hone =>
      have hreal : (k : ℝ) = 1 :=
        he ▸ (ExactScalar.toReal_congr hone).trans ExactScalar.toReal_one
      obtain rfl : k = 1 := by exact_mod_cast hreal
      rcases hk with ⟨hb, -⟩ | ⟨i, hb, hik⟩
      · exact hb.mono (Nat.zero_le n)
      · exact hb.mono (by omega)
    · split
      · next v =>
        rw [foldOr_eq]
        rcases hk with ⟨hv, hk⟩ | ⟨i, -, hik⟩
        · refine .inl ?_
          rw [toReal_pow v he, hv.resolve_right (Nat.lt_irrefl 0), zero_pow hk]
        · exact .inr (by omega)
      · exact h

/-- Simplification does not raise the degree. -/
theorem degreeBelow_ofTerm {t : Term α} (h : t.DegreeBelow var n) :
    (ofTerm t).term.DegreeBelow var n := by
  induction t generalizing n with
  | const _ | symbol _ => exact h
  | sum l r ihl ihr => exact degreeBelow_add (ihl h.1) (ihr h.2)
  | difference l r ihl ihr => exact degreeBelow_sub (ihl h.1) (ihr h.2)
  | product l r ihl ihr =>
    change (mul (ofTerm l).term (ofTerm r).term).term.DegreeBelow var n
    rcases h with hl | hr | ⟨i, j, hl, hr, hij⟩
    · exact .of_isValue (isValue_mul_left ((ihl hl).isValue_zero (normal_ofTerm l)) _)
    · exact .of_isValue (isValue_mul_right _ ((ihr hr).isValue_zero (normal_ofTerm r)))
    · exact degreeBelow_mul (ihl hl) (ihr hr) hij
  | power b e ih =>
    obtain ⟨k, he, hk⟩ := h
    refine degreeBelow_pow ⟨k, he, ?_⟩
    rcases hk with ⟨hb, hk⟩ | ⟨i, hb, hik⟩
    · exact .inl ⟨ih hb, hk⟩
    · exact .inr ⟨i, ih hb, hik⟩
  | quotient _ _ _ _ => exact h.elim
  | call _ _ _ => exact h.elim

theorem additive_degreeBelow : Additive fun t : Term α => t.DegreeBelow var n where
  zero := .const_zero
  sum := .rfl
  difference := .rfl
  neg := degreeBelow_neg

end Simplified

/-! ## Derivatives of polynomials -/

namespace Term

open ExactScalar (toReal)
open Simplified (degreeBelow_ofTerm additive_degreeBelow normal_ofTerm)

variable {α : Type} [ExactScalar α] [UnboundedScalar α] {var : String} {n : ℕ}

theorem DegreeBelow.derive {t : Term α} (h : t.DegreeBelow var n) :
    (t.derive var).DegreeBelow var (n - 1) :=
  additive_degreeBelow.canonicalize var (degreeBelow_ofTerm h.derivative)

/-- Canonical order leaves zero as it is. -/
theorem isValue_derive {t : Term α} (h : (t.derivative var).simplify.isValue 0 = true) :
    (t.derive var).isValue 0 = true := by
  obtain ⟨c, heq, hc⟩ := exists_const_of_isValue h
  rw [Term.derive, heq]
  exact isValue_zero_iff.2 hc

/-- The derivative of what does not depend on the variable is zero. -/
theorem DegreeBelow.derive_eq_zero {t : Term α} (h : t.DegreeBelow var 1) :
    (t.derive var).isValue 0 = true := by
  exact isValue_derive ((degreeBelow_ofTerm h.derivative).isValue_zero (normal_ofTerm _))

/-- The derivatives of a term whose degree is below `n` are zero from the `n`-th on. -/
theorem DegreeBelow.derivatives_eq_zero {t : Term α} {k m : ℕ} (h : t.DegreeBelow var n)
    (hn : n ≤ k + 1) (hk : k < m) :
    ∃ d, (t.derivatives var m)[k]? = some d ∧ d.isValue 0 = true := by
  induction m generalizing t n k with
  | zero => exact absurd hk (Nat.not_lt_zero k)
  | succ m ih =>
    cases k with
    | zero => exact ⟨_, rfl, (h.mono hn).derive_eq_zero⟩
    | succ k => exact ih h.derive (by omega) (Nat.lt_of_succ_lt_succ hk)

/-- The derivatives of a polynomial are zero past its degree. -/
theorem derivatives_past_degree {t : Term α} {k m : ℕ} (var : String) (h : t.IsPolynomial)
    (hk : t.formalDegree var < k) (hm : k ≤ m) :
    ∃ d, (t.derivatives var m)[k - 1]? = some d ∧ d.isValue 0 = true :=
  (h.degreeBelow var).derivatives_eq_zero (by omega) (by omega)

/-- The fourth derivative of `(x + 1)^2 * (x - y)`. -/
theorem derivatives_past_degree_cubic :
    let t : Term ℝ := .product (.power (.sum (.symbol "x") (.const 1)) 2)
      (.difference (.symbol "x") (.symbol "y"))
    t.IsPolynomial ∧ t.formalDegree "x" = 3 ∧
    ∃ d, (t.derivatives "x" 4)[3]? = some d ∧ d.isValue 0 = true := by
  intro t
  have hpoly : t.IsPolynomial := ⟨⟨⟨trivial, trivial⟩, 2, by norm_num [toReal]⟩, trivial, trivial⟩
  have hdegree : t.formalDegree "x" = 3 := by
    simp [t, formalDegree, toReal]
  exact ⟨hpoly, hdegree, derivatives_past_degree "x" hpoly (by omega) le_rfl⟩

end Term

end Fluxion
