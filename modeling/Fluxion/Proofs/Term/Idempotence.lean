import Fluxion.Proofs.Scalar.Integer
import Fluxion.Proofs.Term.NormalForm

/-!
# Simplification in one pass

A simplified term is not simplified any further, and the recorded steps tell whether anything was
changed. Equality of terms is the equality of their numbers, which has two zeros that are equal;
it still tells terms in normal form from others, because no identity tells equal numbers apart.
-/

namespace Fluxion

/-- Numbers whose equality is an equivalence of proper numbers, and whose equal operands give
results that are proper alike. A quotient by zero is left out, for no identity asks for it. -/
class CongruentScalar (α : Type) [Scalar α] : Prop extends PartialEquivBEq α where
  beq_self {v : α} : Scalar.isFinite v = true → (v == v) = true
  isFinite_add {v v' w w' : α} : (v == v') = true → (w == w') = true →
    Scalar.isFinite (v + w) = Scalar.isFinite (v' + w')
  isFinite_sub {v v' w w' : α} : (v == v') = true → (w == w') = true →
    Scalar.isFinite (v - w) = Scalar.isFinite (v' - w')
  isFinite_mul {v v' w w' : α} : (v == v') = true → (w == w') = true →
    Scalar.isFinite (v * w) = Scalar.isFinite (v' * w')
  isFinite_div {v v' w w' : α} : (v == v') = true → (w == w') = true → (w == 0) = false →
    Scalar.isFinite (v / w) = Scalar.isFinite (v' / w')
  isFinite_pow {v v' e e' : α} : (v == v') = true → (e == e') = true →
    Scalar.isFinite (Scalar.pow v e) = Scalar.isFinite (Scalar.pow v' e')

instance : CongruentScalar ℤ where
  symm h := by
    rw [beq_iff_eq] at h ⊢
    exact h.symm
  trans h h' := by
    rw [beq_iff_eq] at h h' ⊢
    exact h.trans h'
  beq_self _ := by
    rw [beq_iff_eq]
  isFinite_add _ _ := rfl
  isFinite_sub _ _ := rfl
  isFinite_mul _ _ := rfl
  isFinite_div _ _ _ := rfl
  isFinite_pow _ _ := rfl

namespace Term

open Simplified (reciprocal? factorRank outOfOrder)

variable {α : Type} [Scalar α] [CongruentScalar α]

theorem beq_self_of_proper {t : Term α} (h : t.Proper) : (t == t) = true := by
  change beq t t = true
  induction t with
  | const v => exact CongruentScalar.beq_self h
  | symbol name => exact beq_self_eq_true name
  | sum l r ihl ihr | difference l r ihl ihr | product l r ihl ihr | quotient l r ihl ihr =>
    exact Bool.and_eq_true_iff.2 ⟨ihl h.1, ihr h.2⟩
  | power b e ih => exact Bool.and_eq_true_iff.2 ⟨ih h.1, CongruentScalar.beq_self h.2⟩
  | call f a ih => exact Bool.and_eq_true_iff.2 ⟨beq_self_eq_true f, ih h⟩

theorem beq_symm {s t : Term α} (h : beq s t = true) : beq t s = true := by
  fun_induction beq s t with
  | case1 v w => exact BEq.symm h
  | case2 a b => exact BEq.symm h
  | case3 _ _ _ _ ihl ihr | case4 _ _ _ _ ihl ihr | case5 _ _ _ _ ihl ihr | case6 _ _ _ _ ihl ihr =>
    obtain ⟨hl, hr⟩ := Bool.and_eq_true_iff.1 h
    exact Bool.and_eq_true_iff.2 ⟨ihl hl, ihr hr⟩
  | case7 b e b' e' ih =>
    obtain ⟨hb, he⟩ := Bool.and_eq_true_iff.1 h
    exact Bool.and_eq_true_iff.2 ⟨ih hb, BEq.symm he⟩
  | case8 f a g b ih =>
    obtain ⟨hf, ha⟩ := Bool.and_eq_true_iff.1 h
    exact Bool.and_eq_true_iff.2 ⟨BEq.symm hf, ih ha⟩
  | case9 => cases h

theorem beq_trans {s t u : Term α} (hst : beq s t = true) (htu : beq t u = true) :
    beq s u = true := by
  fun_induction beq s t generalizing u with
  | case1 v w =>
    cases u <;> simp only [beq, Bool.false_eq_true] at htu ⊢
    exact BEq.trans hst htu
  | case2 a b =>
    cases u <;> simp only [beq, Bool.false_eq_true] at htu ⊢
    exact BEq.trans hst htu
  | case3 _ _ _ _ ihl ihr | case4 _ _ _ _ ihl ihr | case5 _ _ _ _ ihl ihr | case6 _ _ _ _ ihl ihr =>
    cases u <;> simp only [beq, Bool.false_eq_true, Bool.and_eq_true] at htu hst ⊢
    exact ⟨ihl hst.1 htu.1, ihr hst.2 htu.2⟩
  | case7 b e b' e' ih =>
    cases u <;> simp only [beq, Bool.false_eq_true, Bool.and_eq_true] at htu hst ⊢
    exact ⟨ih hst.1 htu.1, BEq.trans hst.2 htu.2⟩
  | case8 f a g b ih =>
    cases u <;> simp only [beq, Bool.false_eq_true, Bool.and_eq_true] at htu hst ⊢
    exact ⟨BEq.trans hst.1 htu.1, ih hst.2 htu.2⟩
  | case9 => cases hst

instance : PartialEquivBEq (Term α) where
  symm := beq_symm
  trans := beq_trans

/-! ## Identities do not tell equal terms apart -/

/-- Terms that are built in the same way, from equal parts. -/
inductive Alike : Term α → Term α → Prop
  | const {v w : α} : (v == w) = true → Alike (.const v) (.const w)
  | symbol {a b : String} : (a == b) = true → Alike (.symbol a) (.symbol b)
  | sum {l r l' r' : Term α} : (l == l') = true → (r == r') = true → Alike (.sum l r) (.sum l' r')
  | difference {l r l' r' : Term α} : (l == l') = true → (r == r') = true →
      Alike (.difference l r) (.difference l' r')
  | product {l r l' r' : Term α} : (l == l') = true → (r == r') = true →
      Alike (.product l r) (.product l' r')
  | quotient {l r l' r' : Term α} : (l == l') = true → (r == r') = true →
      Alike (.quotient l r) (.quotient l' r')
  | power {b b' : Term α} {e e' : α} : (b == b') = true → (e == e') = true →
      Alike (.power b e) (.power b' e')
  | call {f g : Func} {a b : Term α} : (f == g) = true → (a == b) = true →
      Alike (.call f a) (.call g b)

omit [CongruentScalar α] in
theorem alike_of_beq {s t : Term α} (h : (s == t) = true) : Alike s t := by
  change beq s t = true at h
  fun_cases beq s t with
  | case1 v w => exact .const h
  | case2 a b => exact .symbol h
  | case3 l r l' r' => exact .sum (Bool.and_eq_true_iff.1 h).1 (Bool.and_eq_true_iff.1 h).2
  | case4 l r l' r' => exact .difference (Bool.and_eq_true_iff.1 h).1 (Bool.and_eq_true_iff.1 h).2
  | case5 l r l' r' => exact .product (Bool.and_eq_true_iff.1 h).1 (Bool.and_eq_true_iff.1 h).2
  | case6 l r l' r' => exact .quotient (Bool.and_eq_true_iff.1 h).1 (Bool.and_eq_true_iff.1 h).2
  | case7 b e b' e' => exact .power (Bool.and_eq_true_iff.1 h).1 (Bool.and_eq_true_iff.1 h).2
  | case8 f a g b => exact .call (Bool.and_eq_true_iff.1 h).1 (Bool.and_eq_true_iff.1 h).2
  | case9 => simp_all [beq]

theorem isValue_congr {s t : Term α} (v : α) (h : (s == t) = true) : s.isValue v = t.isValue v := by
  cases alike_of_beq h with
  | const hv => exact BEq.congr_left hv
  | symbol | sum | difference | product | quotient | power | call => rfl

omit [CongruentScalar α] in
theorem foldable_congr {f : α → α → α} {l r l' r' : Term α} (hl : (l == l') = true)
    (hr : (r == r') = true)
    (hf : ∀ v v' w w' : α, r = .const w → (v == v') = true → (w == w') = true →
      Scalar.isFinite (f v w) = Scalar.isFinite (f v' w')) :
    foldable f l r = foldable f l' r' := by
  cases alike_of_beq hl with
  | const hv =>
    cases alike_of_beq hr with
    | const hw => exact hf _ _ _ _ rfl hv hw
    | symbol | sum | difference | product | quotient | power | call => rfl
  | symbol | sum | difference | product | quotient | power | call => rfl

theorem plainSum_congr {l r l' r' : Term α} (hl : (l == l') = true) (hr : (r == r') = true) :
    plainSum l r = plainSum l' r' := by
  have hfold : foldable (· + ·) l r = foldable (· + ·) l' r' :=
    foldable_congr hl hr fun _ _ _ _ _ hv hw => CongruentScalar.isFinite_add hv hw
  rw [plainSum, plainSum, hfold, isValue_congr 0 hl, isValue_congr 0 hr]

theorem plainDifference_congr {l r l' r' : Term α} (hl : (l == l') = true)
    (hr : (r == r') = true) : plainDifference l r = plainDifference l' r' := by
  have hfold : foldable (· - ·) l r = foldable (· - ·) l' r' :=
    foldable_congr hl hr fun _ _ _ _ _ hv hw => CongruentScalar.isFinite_sub hv hw
  rw [plainDifference, plainDifference, hfold, isValue_congr 0 hl, isValue_congr 0 hr]

theorem plainQuotient_congr {l r l' r' : Term α} (hl : (l == l') = true) (hr : (r == r') = true) :
    plainQuotient l r = plainQuotient l' r' := by
  have heq : (l == r) = (l' == r') := (BEq.congr_left hl).trans (BEq.congr_right hr)
  rw [plainQuotient, plainQuotient, isValue_congr 0 hl, ← isValue_congr 0 hr, isValue_congr 1 hr, heq]
  cases hzero : r.isValue 0 with
  | true => simp
  | false =>
    have hfold : foldable (· / ·) l r = foldable (· / ·) l' r' := by
      refine foldable_congr hl hr ?_
      rintro v v' w w' rfl hv hw
      exact CongruentScalar.isFinite_div hv hw hzero
    rw [hfold]

theorem plainPower_congr {b b' : Term α} {e e' : α} (hb : (b == b') = true)
    (he : (e == e') = true) : plainPower b e = plainPower b' e' := by
  have h0 : (e == 0) = (e' == 0) := BEq.congr_left he
  have h1 : (e == 1) = (e' == 1) := BEq.congr_left he
  cases alike_of_beq hb with
  | const hv =>
    rw [plainPower, plainPower, h0, h1]
    simp only [CongruentScalar.isFinite_pow hv he]
  | symbol | sum | difference | product | quotient | power | call => simp only [plainPower, h0, h1]

omit [CongruentScalar α] in
theorem isConst_congr {t t' : Term α} (h : (t == t') = true) : t.isConst = t'.isConst := by
  cases alike_of_beq h <;> rfl

omit [CongruentScalar α] in
theorem isFactor_congr {t t' : Term α} (h : (t == t') = true) : t.isFactor = t'.isFactor := by
  cases alike_of_beq h with
  | product hl _ => cases alike_of_beq hl <;> rfl
  | const | symbol | sum | difference | quotient | power | call => rfl

theorem isNone_reciprocal?_congr {t t' : Term α} (h : (t == t') = true) :
    (reciprocal? t).isNone = (reciprocal? t').isNone := by
  cases alike_of_beq h with
  | quotient hl _ =>
    simp only [reciprocal?, isValue_congr 1 hl]
    split <;> rfl
  | const | symbol | sum | difference | product | power | call => rfl

omit [CongruentScalar α] in
theorem factorRank_congr {t t' : Term α} (h : (t == t') = true) :
    factorRank t = factorRank t' := by
  cases alike_of_beq h with
  | power hb _ => cases alike_of_beq hb <;> rfl
  | const | symbol | sum | difference | product | quotient | call => rfl

theorem plainMultiple_congr {c c' : α} {t t' : Term α} (hc : (c == c') = true)
    (ht : (t == t') = true) : plainMultiple c t = plainMultiple c' t' := by
  have h0 : (c == 0) = (c' == 0) := BEq.congr_left hc
  have h1 : (c == 1) = (c' == 1) := BEq.congr_left hc
  by_cases hfactor : t.isFactor = true
  · have hfactor' : t'.isFactor = true := (isFactor_congr ht).symm.trans hfactor
    rw [Simplified.plainMultiple_of_isFactor c hfactor,
      Simplified.plainMultiple_of_isFactor c' hfactor', h0, h1, isNone_reciprocal?_congr ht]
  · cases alike_of_beq ht with
    | const hv => simp only [plainMultiple, CongruentScalar.isFinite_mul hc hv]
    | product hl _ =>
      cases alike_of_beq hl with
      | const hd => simp only [plainMultiple, h0, h1, CongruentScalar.isFinite_mul hc hd]
      | symbol | sum | difference | product | quotient | power | call => exact absurd rfl hfactor
    | symbol | sum | difference | quotient | power | call => exact absurd rfl hfactor

theorem plainProduct_congr {l r l' r' : Term α} (hl : (l == l') = true) (hr : (r == r') = true) :
    plainProduct l r = plainProduct l' r' := by
  by_cases hconst : l.isConst = true
  · cases alike_of_beq hl with
    | const hc => exact plainMultiple_congr hc hr
    | symbol | sum | difference | product | quotient | power | call => cases hconst
  · have horder : outOfOrder l r = outOfOrder l' r' := by
      rw [outOfOrder, outOfOrder, factorRank_congr hl, factorRank_congr hr]
    have hleft : l.isConst = false := Bool.eq_false_iff.2 hconst
    have hleft' : l'.isConst = false := (isConst_congr hl).symm.trans hleft
    rw [Simplified.plainProduct_of_not_isConst r hleft,
      Simplified.plainProduct_of_not_isConst r' hleft', isFactor_congr hl, isFactor_congr hr,
      isNone_reciprocal?_congr hl, isNone_reciprocal?_congr hr, horder]

/-- What equals a term in normal form is in normal form. -/
theorem Normal.congr {s t : Term α} (hs : s.Normal) (h : (s == t) = true) : t.Normal := by
  induction s generalizing t with
  | const v =>
    cases alike_of_beq h
    trivial
  | symbol name =>
    cases alike_of_beq h
    trivial
  | sum l r ihl ihr =>
    obtain ⟨nl, nr, hplain⟩ := hs
    cases alike_of_beq h with
    | sum hl hr => exact ⟨ihl nl hl, ihr nr hr, (plainSum_congr hl hr).symm.trans hplain⟩
  | difference l r ihl ihr =>
    obtain ⟨nl, nr, hplain⟩ := hs
    cases alike_of_beq h with
    | difference hl hr => exact ⟨ihl nl hl, ihr nr hr, (plainDifference_congr hl hr).symm.trans hplain⟩
  | product l r ihl ihr =>
    obtain ⟨nl, nr, hplain⟩ := hs
    cases alike_of_beq h with
    | product hl hr => exact ⟨ihl nl hl, ihr nr hr, (plainProduct_congr hl hr).symm.trans hplain⟩
  | quotient l r ihl ihr =>
    obtain ⟨nl, nr, hplain⟩ := hs
    cases alike_of_beq h with
    | quotient hl hr => exact ⟨ihl nl hl, ihr nr hr, (plainQuotient_congr hl hr).symm.trans hplain⟩
  | power b e ih =>
    obtain ⟨nb, hplain⟩ := hs
    cases alike_of_beq h with
    | power hb he => exact ⟨ih nb hb, (plainPower_congr hb he).symm.trans hplain⟩
  | call f a ih =>
    cases alike_of_beq h with
    | call _ ha =>
      have harg := ih hs ha
      exact harg

end Term

namespace Simplified

variable {α : Type} [Scalar α]

/-- One pass is enough: what it makes of a term is left alone by a second pass, which records no
step. A pass records no step if and only if it gives the term back, and for proper numbers this may
be read with the equality of numbers. -/
theorem one_pass_suffices (t : Term α) :
    ofTerm t.simplify = same t.simplify ∧
    ((ofTerm t).steps = [] ↔ (ofTerm t).term = t) ∧
    (∀ [CongruentScalar α], t.Proper → ((ofTerm t).steps = [] ↔ ((ofTerm t).term == t) = true)) := by
  refine ⟨ofTerm_of_normal (normal_ofTerm t), ?_, ?_⟩
  · exact (steps_eq_nil_iff t).trans (simplify_eq_self_iff t).symm
  · intro _ hproper
    rw [steps_eq_nil_iff]
    constructor
    · intro h
      rw [ofTerm_of_normal h]
      exact Term.beq_self_of_proper hproper
    · intro h
      exact (normal_ofTerm t).congr h

/-- Two identities apply to `cos(x)*(2*x)`, and none to the outcome `2*(x*cos(x))`. -/
theorem one_pass_suffices_reordered :
    let t : Term ℤ := .product (.call .cos (.symbol "x")) (.product (.const 2) (.symbol "x"))
    t.simplify = .product (.const 2) (.product (.symbol "x") (.call .cos (.symbol "x"))) ∧
    (ofTerm t).steps = [.combineCoefficients, .reorderFactors] ∧
    ofTerm t.simplify = same t.simplify ∧ (ofTerm t).term ≠ t ∧ ((ofTerm t).term == t) = false := by
  intro t
  have hsteps : (ofTerm t).steps = [.combineCoefficients, .reorderFactors] := by
    decide +kernel
  have hchanged : (ofTerm t).steps ≠ [] := by
    rw [hsteps]
    exact List.cons_ne_nil _ _
  have hproper : t.Proper := ⟨trivial, rfl, trivial⟩
  obtain ⟨hagain, hsame, hequal⟩ := one_pass_suffices t
  refine ⟨rfl, hsteps, hagain, mt hsame.2 hchanged, ?_⟩
  exact Bool.eq_false_iff.2 (mt (hequal hproper).2 hchanged)

end Simplified

end Fluxion
