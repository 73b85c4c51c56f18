import Fluxion.Proofs.Scalar.Exact

/-!
# Simplification keeps values

Whatever is built with the identities has the value that the plain node has, wherever the plain node
has one. There is one lemma for each way of building a node; that a whole term keeps its value
follows from its leaves to its root.
-/

namespace Fluxion

open Term (Refines)

namespace Simplified

variable {α K : Type} [Scalar α] [Field K] {m : Interpretation α K} {env : String → K}

/-! ## Quotients -/

theorem refines_divNode (hm : m.Exact) (l r : Term α) :
    Refines m env (divNode l r).term (.quotient l r) := by
  intro x h
  obtain ⟨y, hy, z, hz, hz0, rfl⟩ := Term.eval?_quotient.1 h
  unfold divNode
  split
  · next hr =>
    rw [Term.eq_one_of_isValue hm hr hz, div_one]
    exact hy
  · split
    · next hl =>
      have hl0 : l.isValue 0 = true := (Bool.and_eq_true_iff.1 hl).1
      rw [Term.eq_zero_of_isValue hm hl0 hy, zero_div]
      exact Term.eval?_const.2 ⟨hm.isFinite_zero, hm.number_zero⟩
    · split
      · next heq =>
        have hlr : (l == r) = true := (Bool.and_eq_true_iff.1 heq).1
        have hyz : y = z := by
          rw [Term.eval?_congr hm hlr, hz] at hy
          exact (Option.some.inj hy).symm
        rw [hyz, div_self hz0]
        exact Term.eval?_const.2 ⟨hm.isFinite_one, hm.number_one⟩
      · exact h

/-- A constant that was worked out takes the place of a term, if it has the value of the term. -/
theorem refines_foldOr {v : α} {otherwise : Simplified α} {t : Term α}
    (hv : ∀ x, t.eval? m env = some x → Scalar.isFinite v = true → m.number v = x)
    (ho : Refines m env otherwise.term t) : Refines m env (foldOr v otherwise).term t := by
  intro x h
  unfold foldOr
  split
  · next hfin => exact Term.eval?_const.2 ⟨hfin, hv x h hfin⟩
  · exact ho x h

theorem refines_div (hm : m.Exact) (l r : Term α) :
    Refines m env (div l r).term (.quotient l r) := by
  unfold div
  split
  · next v w =>
    split
    · exact refines_divNode hm _ _
    · apply refines_foldOr _ (refines_divNode hm _ _)
      intro x h hfin
      obtain ⟨y, hy, z, hz, hz0, rfl⟩ := Term.eval?_quotient.1 h
      obtain ⟨hvfin, rfl⟩ := Term.eval?_const.1 hy
      obtain ⟨hwfin, rfl⟩ := Term.eval?_const.1 hz
      exact hm.number_div hvfin hwfin hz0 hfin
  · exact refines_divNode hm _ _

/-! ## Products -/

theorem reciprocal?_eq_some {t d : Term α} (h : reciprocal? t = some d) :
    ∃ l, t = .quotient l d ∧ l.isValue 1 = true := by
  fun_cases reciprocal? t with
  | case1 l r hl => exact ⟨l, by simp_all [reciprocal?]⟩
  | case2 l r hl => simp [reciprocal?, hl] at h
  | case3 => simp_all [reciprocal?]

/-- A reciprocal has the inverse of the value of its denominator. -/
theorem eval?_of_reciprocal (hm : m.Exact) {t d : Term α} {x : K} (h : reciprocal? t = some d)
    (hx : t.eval? m env = some x) : ∃ z, d.eval? m env = some z ∧ z ≠ 0 ∧ x = 1 / z := by
  obtain ⟨l, rfl, hl⟩ := reciprocal?_eq_some h
  obtain ⟨y, hy, z, hz, hz0, rfl⟩ := Term.eval?_quotient.1 hx
  exact ⟨z, hz, hz0, by rw [Term.eq_one_of_isValue hm hl hy]⟩

theorem product_comm_refines (l r : Term α) : Refines m env (.product r l) (.product l r) := by
  intro x h
  obtain ⟨y, hy, z, hz, rfl⟩ := Term.eval?_product.1 h
  exact Term.eval?_product.2 ⟨z, hz, y, hy, mul_comm z y⟩

theorem product_assoc_refines (t l r : Term α) :
    Refines m env (.product t (.product l r)) (.product (.product t l) r) := by
  intro x h
  obtain ⟨p, hp, z, hz, rfl⟩ := Term.eval?_product.1 h
  obtain ⟨y, hy, w, hw, rfl⟩ := Term.eval?_product.1 hp
  exact Term.eval?_product.2
    ⟨y, hy, w * z, Term.eval?_product.2 ⟨w, hw, z, hz, rfl⟩, (mul_assoc y w z).symm⟩

theorem product_leftComm_refines (t l r : Term α) :
    Refines m env (.product t (.product l r)) (.product l (.product t r)) := by
  intro x h
  obtain ⟨y, hy, p, hp, rfl⟩ := Term.eval?_product.1 h
  obtain ⟨w, hw, z, hz, rfl⟩ := Term.eval?_product.1 hp
  exact Term.eval?_product.2
    ⟨w, hw, y * z, Term.eval?_product.2 ⟨y, hy, z, hz, rfl⟩, mul_left_comm w y z⟩

/-- A factor times a reciprocal is a quotient. -/
theorem refines_div_of_reciprocal (hm : m.Exact) {l r d : Term α} (h : reciprocal? r = some d) :
    Refines m env (div l d).term (.product l r) := by
  intro x hx
  obtain ⟨y, hy, w, hw, rfl⟩ := Term.eval?_product.1 hx
  obtain ⟨z, hz, hz0, rfl⟩ := eval?_of_reciprocal hm h hw
  exact refines_div hm l d _ (Term.eval?_quotient.2 ⟨y, hy, z, hz, hz0, by rw [mul_one_div]⟩)

theorem refines_mulFactors (hm : m.Exact) (l r : Term α) :
    Refines m env (mulFactors l r).term (.product l r) := by
  unfold mulFactors
  split
  · next d hl => exact (refines_div_of_reciprocal hm hl).trans (product_comm_refines l r)
  · split
    · next d hr => exact refines_div_of_reciprocal hm hr
    · split
      · exact product_comm_refines l r
      · exact Refines.refl _

/-- What settles a product with a constant at once has the value of the product. -/
theorem refines_scaleBy (hm : m.Exact) {c : α} {t : Term α} {otherwise : Simplified α}
    (ho : Refines m env otherwise.term (.product (.const c) t)) :
    Refines m env (scaleBy c t otherwise).term (.product (.const c) t) := by
  intro x h
  obtain ⟨y, hy, z, hz, rfl⟩ := Term.eval?_product.1 h
  have hc : m.number c = y := (Term.eval?_const.1 hy).2
  unfold scaleBy
  split
  · next h0 =>
    have hy0 : y = 0 := by rw [← hc, hm.number_congr h0, hm.number_zero]
    rw [hy0, zero_mul]
    exact Term.eval?_const.2 ⟨hm.isFinite_zero, hm.number_zero⟩
  · split
    · next h1 =>
      have hy1 : y = 1 := by rw [← hc, hm.number_congr h1, hm.number_one]
      rw [hy1, one_mul]
      exact hz
    · exact ho _ h

/-- Two coefficients have the value of their product. -/
theorem refines_combine (hm : m.Exact) {c d : α} (t : Term α)
    (hfin : Scalar.isFinite (c * d) = true) :
    Refines m env (.product (.const (c * d)) t) (.product (.const c) (.product (.const d) t)) := by
  intro x h
  obtain ⟨y, hy, p, hp, rfl⟩ := Term.eval?_product.1 h
  obtain ⟨w, hw, z, hz, rfl⟩ := Term.eval?_product.1 hp
  obtain ⟨hcfin, rfl⟩ := Term.eval?_const.1 hy
  obtain ⟨hdfin, rfl⟩ := Term.eval?_const.1 hw
  exact Term.eval?_product.2
    ⟨_, Term.eval?_const.2 ⟨hfin, hm.number_mul hcfin hdfin hfin⟩, z, hz, mul_assoc _ _ _⟩

theorem refines_scale (hm : m.Exact) (c : α) (t : Term α) :
    Refines m env (scale c t).term (.product (.const c) t) := by
  fun_induction scale c t with
  | case1 c v =>
    apply refines_foldOr _ (Refines.refl _)
    intro x h hfin
    obtain ⟨y, hy, z, hz, rfl⟩ := Term.eval?_product.1 h
    obtain ⟨hcfin, rfl⟩ := Term.eval?_const.1 hy
    obtain ⟨hvfin, rfl⟩ := Term.eval?_const.1 hz
    exact hm.number_mul hcfin hvfin hfin
  | case2 c d t ih =>
    apply refines_scaleBy hm
    split
    · next hfin => exact ih.trans (refines_combine hm t hfin)
    · exact Refines.refl _
  | case3 c t =>
    apply refines_scaleBy hm
    split
    · next d hd => exact refines_div_of_reciprocal hm hd
    · exact Refines.refl _

theorem refines_scaleRight (hm : m.Exact) (l : Term α) (c : α) :
    Refines m env (scaleRight l c).term (.product l (.const c)) := by
  have ho : Refines m env ((scale c l).after .moveCoefficient).term (.product (.const c) l) :=
    refines_scale hm c l
  exact (refines_scaleBy hm ho).trans (product_comm_refines l (.const c))

theorem refines_mulRight (hm : m.Exact) (l r : Term α) :
    Refines m env (mulRight l r).term (.product l r) := by
  fun_induction mulRight l r with
  | case1 c => exact refines_scaleRight hm l c
  | case2 c r ih =>
    have hscale : Refines m env (scale c (mulRight l r).term).term
        (.product (.const c) (.product l r)) :=
      (refines_scale hm c _).trans (.product (.refl _) ih)
    exact hscale.trans (product_leftComm_refines (.const c) l r)
  | case3 r => exact refines_mulFactors hm l r

theorem refines_mul (hm : m.Exact) (l r : Term α) :
    Refines m env (mul l r).term (.product l r) := by
  fun_induction mul l r with
  | case1 c r => exact refines_scale hm c r
  | case2 c l d => exact refines_scaleRight hm (.product (.const c) l) d
  | case3 c l r _ ih =>
    have hscale : Refines m env (scale c (mul l r).term).term
        (.product (.const c) (.product l r)) :=
      (refines_scale hm c _).trans (.product (.refl _) ih)
    exact hscale.trans (product_assoc_refines (.const c) l r)
  | case4 l r => exact refines_mulRight hm l r

theorem eval?_neg (hm : m.Exact) {t : Term α} {x : K} (h : t.eval? m env = some x) :
    (neg t).term.eval? m env = some (-x) := by
  have hneg : (Term.const (-1 : α)).eval? m env = some (-1) :=
    Term.eval?_const.2 ⟨hm.isFinite_negOne, hm.number_negOne⟩
  exact refines_scale hm (-1) t _ (Term.eval?_product.2 ⟨-1, hneg, x, h, neg_one_mul x⟩)

/-! ## Sums and differences -/

theorem refines_addNode (hm : m.Exact) (l r : Term α) :
    Refines m env (addNode l r).term (.sum l r) := by
  intro x h
  obtain ⟨y, hy, z, hz, rfl⟩ := Term.eval?_sum.1 h
  unfold addNode
  split
  · next hr =>
    rw [Term.eq_zero_of_isValue hm hr hz, add_zero]
    exact hy
  · split
    · next hl =>
      rw [Term.eq_zero_of_isValue hm hl hy, zero_add]
      exact hz
    · exact h

theorem refines_add (hm : m.Exact) (l r : Term α) : Refines m env (add l r).term (.sum l r) := by
  unfold add
  split
  · apply refines_foldOr _ (refines_addNode hm _ _)
    intro x h hfin
    obtain ⟨y, hy, z, hz, rfl⟩ := Term.eval?_sum.1 h
    obtain ⟨hvfin, rfl⟩ := Term.eval?_const.1 hy
    obtain ⟨hwfin, rfl⟩ := Term.eval?_const.1 hz
    exact hm.number_add hvfin hwfin hfin
  · exact refines_addNode hm _ _

theorem refines_subNode (hm : m.Exact) (l r : Term α) :
    Refines m env (subNode l r).term (.difference l r) := by
  intro x h
  obtain ⟨y, hy, z, hz, rfl⟩ := Term.eval?_difference.1 h
  unfold subNode
  split
  · next hr =>
    rw [Term.eq_zero_of_isValue hm hr hz, sub_zero]
    exact hy
  · split
    · next hl =>
      rw [Term.eq_zero_of_isValue hm hl hy, zero_sub]
      exact eval?_neg hm hz
    · exact h

theorem refines_sub (hm : m.Exact) (l r : Term α) :
    Refines m env (sub l r).term (.difference l r) := by
  unfold sub
  split
  · apply refines_foldOr _ (refines_subNode hm _ _)
    intro x h hfin
    obtain ⟨y, hy, z, hz, rfl⟩ := Term.eval?_difference.1 h
    obtain ⟨hvfin, rfl⟩ := Term.eval?_const.1 hy
    obtain ⟨hwfin, rfl⟩ := Term.eval?_const.1 hz
    exact hm.number_sub hvfin hwfin hfin
  · exact refines_subNode hm _ _

/-! ## Powers -/

theorem refines_pow (hm : m.Exact) (b : Term α) (e : α) :
    Refines m env (pow b e).term (.power b e) := by
  intro x h
  obtain ⟨y, hy, hx⟩ := Term.eval?_power.1 h
  unfold pow
  split
  · next h0 =>
    rw [hm.power_zero y h0] at hx
    exact Term.eval?_const.2 ⟨hm.isFinite_one, hm.number_one.trans (Option.some.inj hx)⟩
  · split
    · next h1 =>
      rw [hm.power_one y h1] at hx
      exact hy.trans hx
    · split
      · apply refines_foldOr _ (Refines.refl _) x h
        intro x h hfin
        obtain ⟨y, hy, hx⟩ := Term.eval?_power.1 h
        obtain ⟨hvfin, rfl⟩ := Term.eval?_const.1 hy
        exact hm.number_pow hvfin hfin hx
      · exact h

/-! ## Whole terms -/

/-- A simplified term has the value of the term. The induction is from the leaves to the root: a
node built from simplified operands refines the plain node of these, which refines the node. -/
theorem refines_ofTerm (hm : m.Exact) (t : Term α) : Refines m env (ofTerm t).term t := by
  induction t with
  | const v => exact Refines.refl _
  | symbol name => exact Refines.refl _
  | sum l r ihl ihr => exact (refines_add hm _ _).trans (ihl.sum ihr)
  | difference l r ihl ihr => exact (refines_sub hm _ _).trans (ihl.difference ihr)
  | product l r ihl ihr => exact (refines_mul hm _ _).trans (ihl.product ihr)
  | quotient l r ihl ihr => exact (refines_div hm _ _).trans (ihl.quotient ihr)
  | power b e ih => exact (refines_pow hm _ e).trans (ih.power e)
  | call f a ih => exact ih.call f

/-! The value of a node whose operands have values after simplification, though they may have had
none before. -/

theorem eval?_simplify_sum (hm : m.Exact) {l r : Term α} {y z : K}
    (hl : l.simplify.eval? m env = some y) (hr : r.simplify.eval? m env = some z) :
    (Term.sum l r).simplify.eval? m env = some (y + z) :=
  refines_add hm _ _ _ (Term.eval?_sum.2 ⟨y, hl, z, hr, rfl⟩)

theorem eval?_simplify_difference (hm : m.Exact) {l r : Term α} {y z : K}
    (hl : l.simplify.eval? m env = some y) (hr : r.simplify.eval? m env = some z) :
    (Term.difference l r).simplify.eval? m env = some (y - z) :=
  refines_sub hm _ _ _ (Term.eval?_difference.2 ⟨y, hl, z, hr, rfl⟩)

theorem eval?_simplify_product (hm : m.Exact) {l r : Term α} {y z : K}
    (hl : l.simplify.eval? m env = some y) (hr : r.simplify.eval? m env = some z) :
    (Term.product l r).simplify.eval? m env = some (y * z) :=
  refines_mul hm _ _ _ (Term.eval?_product.2 ⟨y, hl, z, hr, rfl⟩)

theorem eval?_simplify_quotient (hm : m.Exact) {l r : Term α} {y z : K}
    (hl : l.simplify.eval? m env = some y) (hr : r.simplify.eval? m env = some z) (hz : z ≠ 0) :
    (Term.quotient l r).simplify.eval? m env = some (y / z) :=
  refines_div hm _ _ _ (Term.eval?_quotient.2 ⟨y, hl, z, hr, hz, rfl⟩)

/-- A power that is worked out, or a base that is taken over, is a proper number. -/
theorem isFinite_of_pow_eq_const (hm : m.Exact) {b : Term α} {e w : α} {y : K}
    (hb : b.eval? m env = some y) (h : (pow b e).term = .const w) : Scalar.isFinite w = true := by
  unfold pow at h
  split at h
  · cases h
    exact hm.isFinite_one
  · split at h
    · change b = .const w at h
      rw [h, Term.eval?_const] at hb
      exact hb.1
    · split at h
      · unfold foldOr at h
        split at h
        · next hfin =>
          cases h
          exact hfin
        · cases h
      · cases h

/-- Nothing times zero is zero, even if the other factor has no value: only a constant is multiplied
out, and that has to be a proper number. -/
theorem eval?_scale_zero (hm : m.Exact) {c : α} {t : Term α} (hc : (c == 0) = true)
    (ht : ∀ w, t = .const w → Scalar.isFinite w = true) :
    (scale c t).term.eval? m env = some 0 := by
  have hcfin : Scalar.isFinite c = true := (hm.isFinite_congr hc).trans hm.isFinite_zero
  have hc0 : m.number c = 0 := (hm.number_congr hc).trans hm.number_zero
  have hzero : (Term.const (0 : α)).eval? m env = some 0 :=
    Term.eval?_const.2 ⟨hm.isFinite_zero, hm.number_zero⟩
  fun_cases scale c t with
  | case1 w =>
    have hplain : (Term.product (.const c) (.const w)).eval? m env = some 0 :=
      Term.eval?_product.2 ⟨0, Term.eval?_const.2 ⟨hcfin, hc0⟩, m.number w,
        Term.eval?_const.2 ⟨ht w rfl, rfl⟩, zero_mul _⟩
    exact refines_scale hm c (.const w) 0 hplain
  | case2 d t | case3 t =>
    unfold scaleBy
    rw [if_pos hc]
    exact hzero

/-- Simplification never changes the value of a term that has one, and neither does building a
single node with the identities, whatever its operands are. -/
theorem keeps_values (hm : m.Exact) (env : String → K) :
    (∀ (t : Term α) (x : K), t.eval? m env = some x → t.simplify.eval? m env = some x) ∧
    (∀ (l r : Term α) (y z : K), l.eval? m env = some y → r.eval? m env = some z →
      (add l r).term.eval? m env = some (y + z) ∧
      (sub l r).term.eval? m env = some (y - z) ∧
      (mul l r).term.eval? m env = some (y * z) ∧
      (z ≠ 0 → (div l r).term.eval? m env = some (y / z))) ∧
    (∀ (b : Term α) (e : α) (y x : K), b.eval? m env = some y → m.power y e = some x →
      (pow b e).term.eval? m env = some x) ∧
    (∀ (t : Term α) (x : K), t.eval? m env = some x → (neg t).term.eval? m env = some (-x)) := by
  refine ⟨?_, ?_, ?_, ?_⟩
  · intro t x h
    exact refines_ofTerm hm t x h
  · intro l r y z hy hz
    refine ⟨?_, ?_, ?_, ?_⟩
    · exact refines_add hm l r _ (Term.eval?_sum.2 ⟨y, hy, z, hz, rfl⟩)
    · exact refines_sub hm l r _ (Term.eval?_difference.2 ⟨y, hy, z, hz, rfl⟩)
    · exact refines_mul hm l r _ (Term.eval?_product.2 ⟨y, hy, z, hz, rfl⟩)
    · intro hz0
      exact refines_div hm l r _ (Term.eval?_quotient.2 ⟨y, hy, z, hz, hz0, rfl⟩)
  · intro b e y x hy hx
    exact refines_pow hm b e x (Term.eval?_power.2 ⟨y, hy, hx⟩)
  · intro t x h
    exact eval?_neg hm h

/-- The law at `1 / x * (3 * x)` for `x = 2`, where the two `x` are cancelled. -/
theorem keeps_values_cancelled :
    let t : Term ℝ :=
      .product (.quotient (.const 1) (.symbol "x")) (.product (.const 3) (.symbol "x"))
    (Interpretation.smooth : Interpretation ℝ ℝ).Exact ∧
      t.eval? .smooth (fun _ => 2) = some 3 ∧ t.simplify.eval? .smooth (fun _ => 2) = some 3 := by
  intro t
  have hreciprocal : (Term.quotient (.const 1) (.symbol "x") : Term ℝ).eval? .smooth (fun _ => 2) =
      some (1 / 2) :=
    Term.eval?_quotient.2 ⟨1, Term.eval?_const.2 ⟨rfl, rfl⟩, 2, Term.eval?_symbol.2 rfl,
      two_ne_zero, rfl⟩
  have hmultiple : (Term.product (.const 3) (.symbol "x") : Term ℝ).eval? .smooth (fun _ => 2) =
      some (3 * 2) :=
    Term.eval?_product.2 ⟨3, Term.eval?_const.2 ⟨rfl, rfl⟩, 2, Term.eval?_symbol.2 rfl, rfl⟩
  have ht : t.eval? .smooth (fun _ => 2) = some 3 :=
    Term.eval?_product.2 ⟨1 / 2, hreciprocal, 3 * 2, hmultiple, by norm_num⟩
  exact ⟨Interpretation.exact_smooth, ht,
    (keeps_values Interpretation.exact_smooth (fun _ => 2)).1 t 3 ht⟩

end Simplified

end Fluxion
