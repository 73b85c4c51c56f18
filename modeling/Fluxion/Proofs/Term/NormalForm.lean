import Fluxion.Proofs.Term.SimplifyValue

/-!
# Normal form

A term is in normal form if no identity applies anywhere in it. Which identities apply to a node is
seen from its operands: constants that can be worked out, zeros and ones, misplaced coefficients,
reciprocals, equal operands of a quotient, factors in the wrong order. Whatever is built from
operands in normal form is in normal form again, and so a simplified term is; a term in normal form
is left alone.
-/

namespace Fluxion

namespace Term

variable {α : Type} [Scalar α]

open Simplified (reciprocal? outOfOrder)

/-- Whether the operands are constants that an operation makes a proper number of. -/
def foldable (f : α → α → α) : Term α → Term α → Bool
  | const v, const w => Scalar.isFinite (f v w)
  | _, _ => false

/-- Whether no identity applies to a sum of the operands. -/
def plainSum (l r : Term α) : Bool :=
  !foldable (· + ·) l r && !l.isValue 0 && !r.isValue 0

/-- Whether no identity applies to a difference of the operands. -/
def plainDifference (l r : Term α) : Bool :=
  !foldable (· - ·) l r && !l.isValue 0 && !r.isValue 0

/-- Whether no identity applies to a quotient of the operands. Nothing is divided by zero. -/
def plainQuotient (l r : Term α) : Bool :=
  !r.isValue 1 && (r.isValue 0 || !(foldable (· / ·) l r || l.isValue 0 || l == r))

/-- Whether no identity applies to a product with the coefficient `c`. -/
def plainMultiple (c : α) : Term α → Bool
  | const v => !Scalar.isFinite (c * v)
  | product (const d) _ => !(c == 0) && !(c == 1) && !Scalar.isFinite (c * d)
  | t => !(c == 0) && !(c == 1) && (reciprocal? t).isNone

/-- Whether a term is neither a constant nor has a coefficient. -/
def isFactor : Term α → Bool
  | const _ | product (const _) _ => false
  | _ => true

/-- Whether no identity applies to a product of the operands. -/
def plainProduct : Term α → Term α → Bool
  | const c, r => plainMultiple c r
  | l, r => l.isFactor && r.isFactor && (reciprocal? l).isNone && (reciprocal? r).isNone &&
      !outOfOrder l r

/-- Whether no identity applies to a power. -/
def plainPower (b : Term α) (e : α) : Bool :=
  !(e == 0) && !(e == 1) &&
    match b with
    | const v => !Scalar.isFinite (Scalar.pow v e)
    | _ => true

/-- The term is in normal form: no identity applies to any of its nodes. -/
def Normal : Term α → Prop
  | const _ | symbol _ => True
  | sum l r => l.Normal ∧ r.Normal ∧ plainSum l r = true
  | difference l r => l.Normal ∧ r.Normal ∧ plainDifference l r = true
  | product l r => l.Normal ∧ r.Normal ∧ plainProduct l r = true
  | quotient l r => l.Normal ∧ r.Normal ∧ plainQuotient l r = true
  | power b e => b.Normal ∧ plainPower b e = true
  | call _ a => a.Normal

end Term

namespace Simplified

variable {α : Type} [Scalar α]

open Term (Normal foldable plainSum plainDifference plainQuotient plainMultiple plainProduct
  plainPower isFactor)

/-! ## Plain nodes

A node that no identity applies to is built as it is, without a step; every other node is built in
at least one step. -/

/-- A node is built as it is if it is plain, and with at least one step if it is not. -/
def Builds (s : Simplified α) (plain : Bool) (node : Term α) : Prop :=
  if plain then s = same node else s.steps ≠ []

omit [Scalar α] in
theorem Builds.of_step {s : Simplified α} {plain : Bool} {node : Term α} (hplain : plain = false)
    (hsteps : s.steps ≠ []) : s.Builds plain node := by
  rw [Builds, hplain]
  exact hsteps

omit [Scalar α] in
theorem Builds.of_same {s : Simplified α} {plain : Bool} {node : Term α} (hplain : plain = true)
    (hs : s = same node) : s.Builds plain node := by
  rw [Builds, hplain]
  exact hs

omit [Scalar α] in
theorem Builds.of_plain {s : Simplified α} {plain : Bool} {node : Term α} (h : s.Builds plain node)
    (hplain : plain = true) : s = same node := by
  subst hplain
  exact h

omit [Scalar α] in
/-- A node that is built without a step is plain. -/
theorem Builds.eq_same {s : Simplified α} {plain : Bool} {node : Term α} (h : s.Builds plain node)
    (hsteps : s.steps = []) : plain = true ∧ s = same node := by
  cases plain with
  | true => exact ⟨rfl, h⟩
  | false => exact absurd hsteps h

theorem foldOr_builds {v : α} {plain : Bool} {otherwise : Simplified α} {node : Term α}
    (h : otherwise.Builds plain node) :
    (foldOr v otherwise).Builds (!Scalar.isFinite v && plain) node := by
  unfold foldOr
  split
  · next hfinite => exact .of_step (by simp [hfinite]) (List.cons_ne_nil _ _)
  · next hfinite => simpa [hfinite] using h

theorem foldable_eq_false {f : α → α → α} {l r : Term α}
    (h : ∀ v w, l = .const v → r = .const w → False) : foldable f l r = false := by
  unfold foldable
  split
  · next v w => exact absurd rfl (h v w rfl)
  · rfl

theorem addNode_builds (l r : Term α) :
    (addNode l r).Builds (!l.isValue 0 && !r.isValue 0) (.sum l r) := by
  unfold addNode
  split
  · next hr => exact .of_step (by simp [hr]) (List.cons_ne_nil _ _)
  · split
    · next hl => exact .of_step (by simp [hl]) (List.cons_ne_nil _ _)
    · next hr hl => exact .of_same (by simp [hl, hr]) rfl

theorem add_builds (l r : Term α) : (add l r).Builds (plainSum l r) (.sum l r) := by
  have hnode := addNode_builds l r
  unfold add
  split
  · simpa [plainSum, foldable, Bool.and_assoc] using foldOr_builds hnode
  · next hconst => simpa [plainSum, foldable_eq_false hconst] using hnode

theorem subNode_builds (l r : Term α) :
    (subNode l r).Builds (!l.isValue 0 && !r.isValue 0) (.difference l r) := by
  unfold subNode
  split
  · next hr => exact .of_step (by simp [hr]) (List.cons_ne_nil _ _)
  · split
    · next hl => exact .of_step (by simp [hl]) (List.cons_ne_nil _ _)
    · next hr hl => exact .of_same (by simp [hl, hr]) rfl

theorem sub_builds (l r : Term α) : (sub l r).Builds (plainDifference l r) (.difference l r) := by
  have hnode := subNode_builds l r
  unfold sub
  split
  · simpa [plainDifference, foldable, Bool.and_assoc] using foldOr_builds hnode
  · next hconst => simpa [plainDifference, foldable_eq_false hconst] using hnode

theorem divNode_builds (l r : Term α) :
    (divNode l r).Builds (!r.isValue 1 && (r.isValue 0 || !(l.isValue 0 || l == r)))
      (.quotient l r) := by
  unfold divNode
  split
  · next hr => exact .of_step (by simp [hr]) (List.cons_ne_nil _ _)
  · split
    · next hl => exact .of_step (by simp_all) (List.cons_ne_nil _ _)
    · split
      · next heq => exact .of_step (by simp_all) (List.cons_ne_nil _ _)
      · next hr hl heq =>
        refine .of_same ?_ rfl
        cases hzero : r.isValue 0 with
        | true => simp [hr]
        | false => simp_all

theorem div_builds (l r : Term α) : (div l r).Builds (plainQuotient l r) (.quotient l r) := by
  have hnode := divNode_builds l r
  unfold div
  split
  · next v w =>
    split
    · next hzero =>
      have hr : (Term.const w).isValue 0 = true := hzero
      simpa [plainQuotient, hr] using hnode
    · next hzero =>
      have hr : (Term.const w).isValue 0 = false := by simpa [Term.isValue] using hzero
      have hplain : plainQuotient (.const v) (.const w) = (!Scalar.isFinite (v / w) &&
          (!(Term.const w).isValue 1 && !((Term.const v).isValue 0 || Term.const v == .const w))) := by
        simp [plainQuotient, foldable, hr, Bool.and_left_comm, Bool.and_assoc]
      rw [hplain]
      simpa [hr] using foldOr_builds hnode
  · next hconst => simpa [plainQuotient, foldable_eq_false hconst] using hnode

theorem pow_builds (b : Term α) (e : α) : (pow b e).Builds (plainPower b e) (.power b e) := by
  unfold pow plainPower
  split
  · next hzero => exact .of_step (by simp [hzero]) (List.cons_ne_nil _ _)
  · split
    · next hone => exact .of_step (by simp [hone]) (List.cons_ne_nil _ _)
    · next hzero hone =>
      cases b with
      | const v =>
        have hsame : (same (.power (.const v) e)).Builds true (.power (.const v) e) := rfl
        simpa [hzero, hone] using foldOr_builds hsame
      | symbol _ | sum _ _ | difference _ _ | product _ _ | quotient _ _ | power _ _ | call _ _ =>
        exact .of_same (by simp [hzero, hone]) rfl

theorem scaleBy_builds {c : α} {t : Term α} {plain : Bool} {otherwise : Simplified α}
    {node : Term α} (h : otherwise.Builds plain node) :
    (scaleBy c t otherwise).Builds (!(c == 0) && !(c == 1) && plain) node := by
  unfold scaleBy
  split
  · next hzero => exact .of_step (by simp [hzero]) (List.cons_ne_nil _ _)
  · split
    · next hone => exact .of_step (by simp [hone]) (List.cons_ne_nil _ _)
    · next hzero hone => simpa [hzero, hone] using h

omit [Scalar α] in
theorem isConst_eq_false {t : Term α} (h : ∀ v, t = .const v → False) : t.isConst = false := by
  cases t with
  | const v => exact absurd rfl (h v)
  | symbol _ | sum _ _ | difference _ _ | product _ _ | quotient _ _ | power _ _ | call _ _ => rfl

omit [Scalar α] in
theorem isFactor_eq_true {t : Term α} (hconst : ∀ v, t = .const v → False)
    (hmultiple : ∀ d r, t = .product (.const d) r → False) : t.isFactor = true := by
  unfold isFactor
  split
  · next v => exact absurd rfl (hconst v)
  · next d r => exact absurd rfl (hmultiple d r)
  · rfl

theorem plainMultiple_of_isFactor {t : Term α} (c : α) (h : t.isFactor = true) :
    plainMultiple c t = (!(c == 0) && !(c == 1) && (reciprocal? t).isNone) := by
  unfold plainMultiple
  split
  · cases h
  · cases h
  · rfl

theorem scale_builds (c : α) (t : Term α) :
    (scale c t).Builds (plainMultiple c t) (.product (.const c) t) := by
  fun_cases scale c t with
  | case1 v =>
    have hsame : (same (.product (.const c) (.const v))).Builds true
      (.product (.const c) (.const v)) := rfl
    simpa [plainMultiple] using foldOr_builds hsame
  | case2 d t =>
    refine scaleBy_builds ?_
    split
    · next hfinite => exact .of_step (by simp [hfinite]) (List.cons_ne_nil _ _)
    · next hfinite => exact .of_same (by simp [hfinite]) rfl
  | case3 t hconst hmultiple =>
    rw [plainMultiple_of_isFactor c (isFactor_eq_true hconst hmultiple)]
    refine scaleBy_builds ?_
    split
    · next hsome => exact .of_step (by simp [hsome]) (List.cons_ne_nil _ _)
    · next hnone => exact .of_same (by simp [hnone]) rfl

theorem mulFactors_builds (l r : Term α) :
    (mulFactors l r).Builds
      ((reciprocal? l).isNone && (reciprocal? r).isNone && !outOfOrder l r) (.product l r) := by
  unfold mulFactors
  split
  · next hl => exact .of_step (by simp [hl]) (List.cons_ne_nil _ _)
  · next hl =>
    split
    · next hr => exact .of_step (by simp [hr]) (List.cons_ne_nil _ _)
    · next hr =>
      split
      · next horder => exact .of_step (by simp [horder]) (List.cons_ne_nil _ _)
      · next horder => exact .of_same (by simp [hl, hr, horder]) rfl

theorem scaleRight_steps (l : Term α) (c : α) : (scaleRight l c).steps ≠ [] := by
  unfold scaleRight scaleBy
  split
  · exact List.cons_ne_nil _ _
  · split <;> exact List.cons_ne_nil _ _

theorem mulRight_builds (l r : Term α) :
    (mulRight l r).Builds
      (r.isFactor && (reciprocal? l).isNone && (reciprocal? r).isNone && !outOfOrder l r)
      (.product l r) := by
  fun_cases mulRight l r with
  | case1 c => exact .of_step rfl (scaleRight_steps l c)
  | case2 c r => exact .of_step rfl (List.cons_ne_nil _ _)
  | case3 r hconst hmultiple =>
    rw [isFactor_eq_true hconst hmultiple, Bool.true_and]
    exact mulFactors_builds l r

theorem plainProduct_of_isFactor {l : Term α} (r : Term α) (h : l.isFactor = true) :
    plainProduct l r =
      (r.isFactor && (reciprocal? l).isNone && (reciprocal? r).isNone && !outOfOrder l r) := by
  unfold plainProduct
  split
  · cases h
  · rw [h, Bool.true_and]

/-- Without a coefficient on the left, none may be on the right. -/
theorem plainProduct_of_not_isConst {l : Term α} (r : Term α) (h : l.isConst = false) :
    plainProduct l r = (l.isFactor && r.isFactor && (reciprocal? l).isNone &&
      (reciprocal? r).isNone && !outOfOrder l r) := by
  cases l with
  | const c => cases h
  | symbol _ | sum _ _ | difference _ _ | product _ _ | quotient _ _ | power _ _ | call _ _ => rfl

theorem mul_builds (l r : Term α) : (mul l r).Builds (plainProduct l r) (.product l r) := by
  fun_cases mul l r with
  | case1 c r => exact scale_builds c r
  | case2 c l d => exact .of_step rfl (scaleRight_steps _ d)
  | case3 c l r => exact .of_step rfl (List.cons_ne_nil _ _)
  | case4 l r hconst hmultiple =>
    rw [plainProduct_of_isFactor r (isFactor_eq_true hconst hmultiple)]
    exact mulRight_builds l r

/-! ## Products by their factors -/

theorem scale_of_isFactor (c : α) {t : Term α} (h : t.isFactor = true) :
    scale c t = scaleBy c t
      (match reciprocal? t with
      | some d => (div (.const c) d).after .reciprocalProduct
      | none => same (.product (.const c) t)) := by
  unfold scale
  split
  · cases h
  · cases h
  · rfl

theorem mulRight_of_isFactor (left : Term α) {right : Term α} (h : right.isFactor = true) :
    mulRight left right = mulFactors left right := by
  unfold mulRight
  split
  · cases h
  · cases h
  · rfl

theorem mul_of_isFactor {left : Term α} (right : Term α) (h : left.isFactor = true) :
    mul left right = mulRight left right := by
  unfold mul
  split
  · cases h
  · cases h
  · rfl

/-- A coefficient on the left is taken out of a product. -/
theorem mul_multiple (c : α) (left : Term α) {right : Term α} (h : right.isConst = false) :
    mul (.product (.const c) left) right =
      ((mul left right).andThen (scale c)).after .combineCoefficients := by
  cases right with
  | const v => cases h
  | symbol _ | sum _ _ | difference _ _ | product _ _ | quotient _ _ | power _ _ | call _ _ => rfl

theorem mul_multiple_term (c : α) (l : Term α) {r : Term α} (hr : r.isConst = false) :
    (mul (.product (.const c) l) r).term = (scale c (mul l r).term).term := by
  rw [mul_multiple c l hr]
  rfl

/-! ## Nodes of operands in normal form -/

/-- What any steps lead to is in normal form. -/
def Leads (s : Simplified α) : Prop := s.steps ≠ [] → s.term.Normal

theorem Leads.same (t : Term α) : (same t).Leads := fun h => absurd rfl h

theorem Leads.step {s : Simplified α} (h : s.term.Normal) : s.Leads := fun _ => h

/-- Plain or not, the node is in normal form. -/
theorem Leads.normal {s : Simplified α} {plain : Bool} {node : Term α} (h : s.Leads)
    (hbuilds : s.Builds plain node) (hnode : plain = true → node.Normal) : s.term.Normal := by
  by_cases hsteps : s.steps = []
  · obtain ⟨hplain, hs⟩ := hbuilds.eq_same hsteps
    rw [hs]
    exact hnode hplain
  · exact h hsteps

theorem leads_foldOr {v : α} {otherwise : Simplified α} (h : otherwise.Leads) :
    (foldOr v otherwise).Leads := by
  unfold foldOr
  split
  · exact .step trivial
  · exact h

theorem leads_addNode {l r : Term α} (hl : l.Normal) (hr : r.Normal) : (addNode l r).Leads := by
  unfold addNode
  split
  · exact .step hl
  · split
    · exact .step hr
    · exact .same _

theorem normal_add {l r : Term α} (hl : l.Normal) (hr : r.Normal) : (add l r).term.Normal := by
  have hleads : (add l r).Leads := by
    unfold add
    split
    · exact leads_foldOr (leads_addNode hl hr)
    · exact leads_addNode hl hr
  exact hleads.normal (add_builds l r) fun hplain => ⟨hl, hr, hplain⟩

theorem leads_divNode {l r : Term α} (hl : l.Normal) : (divNode l r).Leads := by
  unfold divNode
  split
  · exact .step hl
  · split
    · exact .step trivial
    · split
      · exact .step trivial
      · exact .same _

theorem normal_div {l r : Term α} (hl : l.Normal) (hr : r.Normal) : (div l r).term.Normal := by
  have hleads : (div l r).Leads := by
    unfold div
    split
    · split
      · exact leads_divNode hl
      · exact leads_foldOr (leads_divNode hl)
    · exact leads_divNode hl
  exact hleads.normal (div_builds l r) fun hplain => ⟨hl, hr, hplain⟩

theorem normal_pow {b : Term α} (e : α) (hb : b.Normal) : (pow b e).term.Normal := by
  have hleads : (pow b e).Leads := by
    unfold pow
    split
    · exact .step trivial
    · split
      · exact .step hb
      · split
        · exact leads_foldOr (.same _)
        · exact .same _
  exact hleads.normal (pow_builds b e) fun hplain => ⟨hb, hplain⟩

theorem leads_scaleBy {c : α} {t : Term α} {otherwise : Simplified α} (ht : t.Normal)
    (h : otherwise.Leads) : (scaleBy c t otherwise).Leads := by
  unfold scaleBy
  split
  · exact .step trivial
  · split
    · exact .step ht
    · exact h

theorem normal_of_reciprocal {t d : Term α} (ht : t.Normal) (h : reciprocal? t = some d) :
    d.Normal := by
  obtain ⟨l, rfl, -⟩ := reciprocal?_eq_some h
  exact ht.2.1

theorem normal_scale (c : α) {t : Term α} (ht : t.Normal) : (scale c t).term.Normal := by
  fun_induction scale c t with
  | case1 c v =>
    exact (leads_foldOr (.same _)).normal (scale_builds c (.const v)) fun hplain =>
      ⟨trivial, ht, hplain⟩
  | case2 c d t ih =>
    have hleads : (scale c (.product (.const d) t)).Leads := by
      rw [scale]
      refine leads_scaleBy ht ?_
      split
      · exact .step (ih ht.2.1)
      · exact .same _
    exact hleads.normal (scale_builds c _) fun hplain => ⟨trivial, ht, hplain⟩
  | case3 c t hconst hmultiple =>
    have hleads : (scale c t).Leads := by
      rw [scale]
      · refine leads_scaleBy ht ?_
        split
        · next d hd => exact .step (normal_div trivial (normal_of_reciprocal ht hd))
        · exact .same _
      · exact hconst
      · exact hmultiple
    have hnormal := hleads.normal (scale_builds c t) fun hplain => ⟨trivial, ht, hplain⟩
    rw [scale] at hnormal
    · exact hnormal
    · exact hconst
    · exact hmultiple

theorem normal_scaleRight {l : Term α} (c : α) (hl : l.Normal) : (scaleRight l c).term.Normal :=
  leads_scaleBy hl (.step (normal_scale c hl)) (scaleRight_steps l c)

omit [Scalar α] in
/-- The order of two factors is only ever reversed if it is wrong, and then it is right. -/
theorem outOfOrder_asymm {l r : Term α} (h : outOfOrder l r = true) : outOfOrder r l = false := by
  unfold outOfOrder at h ⊢
  split at h
  · next hl hr =>
    rw [hl, hr]
    simp only [decide_eq_true_eq, decide_eq_false_iff_not] at h ⊢
    omega
  · cases h

theorem leads_mulFactors {l r : Term α} (hl : l.Normal) (hr : r.Normal)
    (hlfactor : l.isFactor = true) (hrfactor : r.isFactor = true) : (mulFactors l r).Leads := by
  unfold mulFactors
  split
  · next d hd => exact .step (normal_div hr (normal_of_reciprocal hl hd))
  · next hlnone =>
    split
    · next d hd => exact .step (normal_div hl (normal_of_reciprocal hr hd))
    · next hrnone =>
      split
      · next horder =>
        refine .step ⟨hr, hl, ?_⟩
        rw [plainProduct_of_isFactor l hrfactor, hlfactor, hlnone, hrnone, outOfOrder_asymm horder]
        rfl
      · exact .same _

theorem normal_mulRight {l r : Term α} (hl : l.Normal) (hr : r.Normal) (hfactor : l.isFactor = true) :
    (mulRight l r).term.Normal := by
  fun_induction mulRight l r with
  | case1 c => exact normal_scaleRight c hl
  | case2 c r ih => exact normal_scale c (ih hr.2.1)
  | case3 r hconst hmultiple =>
    have hrfactor := isFactor_eq_true hconst hmultiple
    refine (leads_mulFactors hl hr hfactor hrfactor).normal (mulFactors_builds l r) ?_
    intro hplain
    refine ⟨hl, hr, ?_⟩
    rw [plainProduct_of_isFactor r hfactor, hrfactor, Bool.true_and]
    exact hplain

theorem normal_mul {l r : Term α} (hl : l.Normal) (hr : r.Normal) : (mul l r).term.Normal := by
  fun_induction mul l r with
  | case1 c r => exact normal_scale c hr
  | case2 c l d => exact normal_scaleRight d hl
  | case3 c l r _ ih => exact normal_scale c (ih hl.2.1 hr)
  | case4 l r hconst hmultiple => exact normal_mulRight hl hr (isFactor_eq_true hconst hmultiple)

theorem normal_neg {t : Term α} (ht : t.Normal) : (neg t).term.Normal := normal_scale (-1) ht

theorem leads_subNode {l r : Term α} (hl : l.Normal) (hr : r.Normal) : (subNode l r).Leads := by
  unfold subNode
  split
  · exact .step hl
  · split
    · exact .step (normal_neg hr)
    · exact .same _

theorem normal_sub {l r : Term α} (hl : l.Normal) (hr : r.Normal) : (sub l r).term.Normal := by
  have hleads : (sub l r).Leads := by
    unfold sub
    split
    · exact leads_foldOr (leads_subNode hl hr)
    · exact leads_subNode hl hr
  exact hleads.normal (sub_builds l r) fun hplain => ⟨hl, hr, hplain⟩

/-! ## Whole terms -/

/-- A simplified term is in normal form, for its nodes are built from operands in normal form. -/
theorem normal_ofTerm (t : Term α) : (ofTerm t).term.Normal := by
  induction t with
  | const v => trivial
  | symbol name => trivial
  | sum l r ihl ihr => exact normal_add ihl ihr
  | difference l r ihl ihr => exact normal_sub ihl ihr
  | product l r ihl ihr => exact normal_mul ihl ihr
  | quotient l r ihl ihr => exact normal_div ihl ihr
  | power b e ih => exact normal_pow e ih
  | call f a ih => exact ih

omit [Scalar α] in
theorem andBoth_same (l r : Term α) (f : Term α → Term α → Simplified α) :
    (same l).andBoth (same r) f = f l r := rfl

/-- A term in normal form is left alone. -/
theorem ofTerm_of_normal {t : Term α} (h : t.Normal) : ofTerm t = same t := by
  induction t with
  | const v => rfl
  | symbol name => rfl
  | sum l r ihl ihr =>
    obtain ⟨hl, hr, hplain⟩ := h
    rw [ofTerm, ihl hl, ihr hr, andBoth_same]
    exact (add_builds l r).of_plain hplain
  | difference l r ihl ihr =>
    obtain ⟨hl, hr, hplain⟩ := h
    rw [ofTerm, ihl hl, ihr hr, andBoth_same]
    exact (sub_builds l r).of_plain hplain
  | product l r ihl ihr =>
    obtain ⟨hl, hr, hplain⟩ := h
    rw [ofTerm, ihl hl, ihr hr, andBoth_same]
    exact (mul_builds l r).of_plain hplain
  | quotient l r ihl ihr =>
    obtain ⟨hl, hr, hplain⟩ := h
    rw [ofTerm, ihl hl, ihr hr, andBoth_same]
    exact (div_builds l r).of_plain hplain
  | power b e ih =>
    obtain ⟨hb, hplain⟩ := h
    rw [ofTerm, ih hb]
    exact (pow_builds b e).of_plain hplain
  | call f a ih =>
    rw [ofTerm, ih h]
    rfl

/-- Nothing is recorded of a node of two operands if nothing is recorded of the operands and of
building the node. -/
theorem normal_of_andBoth {l r node : Term α} {f : Term α → Term α → Simplified α} {plain : Bool}
    (hl : (ofTerm l).steps = [] → l.Normal) (hr : (ofTerm r).steps = [] → r.Normal)
    (hbuilds : (f l r).Builds plain node)
    (h : ((ofTerm l).andBoth (ofTerm r) f).steps = []) : l.Normal ∧ r.Normal ∧ plain = true := by
  obtain ⟨hlsteps, hrest⟩ := List.append_eq_nil_iff.1 h
  obtain ⟨hrsteps, hsteps⟩ := List.append_eq_nil_iff.1 hrest
  refine ⟨hl hlsteps, hr hrsteps, ?_⟩
  rw [ofTerm_of_normal (hl hlsteps), ofTerm_of_normal (hr hrsteps)] at hsteps
  exact (hbuilds.eq_same hsteps).1

/-- Only a term in normal form is simplified without a step. -/
theorem normal_of_steps {t : Term α} (h : (ofTerm t).steps = []) : t.Normal := by
  induction t with
  | const v => trivial
  | symbol name => trivial
  | sum l r ihl ihr => exact normal_of_andBoth ihl ihr (add_builds l r) h
  | difference l r ihl ihr => exact normal_of_andBoth ihl ihr (sub_builds l r) h
  | product l r ihl ihr => exact normal_of_andBoth ihl ihr (mul_builds l r) h
  | quotient l r ihl ihr => exact normal_of_andBoth ihl ihr (div_builds l r) h
  | power b e ih =>
    obtain ⟨hbsteps, hsteps⟩ := List.append_eq_nil_iff.1 h
    rw [ofTerm_of_normal (ih hbsteps)] at hsteps
    exact ⟨ih hbsteps, ((pow_builds b e).eq_same hsteps).1⟩
  | call f a ih => exact ih (List.append_eq_nil_iff.1 h).1

theorem steps_eq_nil_iff (t : Term α) : (ofTerm t).steps = [] ↔ t.Normal := by
  constructor
  · exact normal_of_steps
  · intro h
    rw [ofTerm_of_normal h]
    rfl

/-- The terms in normal form are those that simplification leaves as they are. -/
theorem simplify_eq_self_iff (t : Term α) : t.simplify = t ↔ t.Normal := by
  constructor
  · intro h
    rw [← h]
    exact normal_ofTerm t
  · intro h
    exact congrArg Simplified.term (ofTerm_of_normal h)

end Simplified

end Fluxion
