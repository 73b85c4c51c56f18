import Fluxion.Proofs.Term.Idempotence
import Fluxion.Proofs.Term.Materials
import Fluxion.Proofs.Term.Opposite
import Fluxion.Proofs.Term.RoundTrip

/-!
# Reading a simplified term back

The text of a term is read as `asRead` says. Simplifying what was read gives a term in normal form
back if its text is legible: no minus sign is merged into an operator, and wherever a coefficient is
written before a chain of factors, it does not matter that it takes only the first of them. For a
quotient it does: `2*(x/y)` is written `2x/y`, which is read as `(2x)/y`, and the identities leave
both as they are.
-/

namespace Fluxion.Term

open Fluxion.Expr (negate)
open Simplified (reciprocal? mul_builds scale_builds)

variable {α : Type} [Scalar α]

/-- Whether it does not matter if a coefficient takes only the first factor of the term: as a chain
of factors the term starts neither with a quotient nor with another coefficient. -/
def holdsTogether : Term α → Bool
  | product (const _) _ | quotient _ _ => false
  | product l _ => l.holdsTogether
  | _ => true

/-- The text of the term is read as the same tree, but for coefficients: no right operand of a sum or
a difference has a minus sign at the front, and what a coefficient is written before holds together,
or stands in parentheses because of a minus sign. -/
def Legible [Numeral α] : Term α → Prop
  | const _ | symbol _ => True
  | sum l r | difference l r => l.Legible ∧ r.Legible ∧ r.hasMinus = false
  | product (const _) r =>
    r.Legible ∧ (startsWithMinus (r.chars .caret) = true ∨ r.holdsTogether = true)
  | product l r | quotient l r => l.Legible ∧ r.Legible
  | power b _ => b.Legible
  | call _ a => a.Legible

theorem legible_product [Numeral α] {l r : Term α} (hconst : l.isConst = false) :
    (product l r).Legible ↔ l.Legible ∧ r.Legible := by
  cases l with
  | const c => cases hconst
  | symbol _ | sum _ _ | difference _ _ | product _ _ | quotient _ _ | power _ _ | call _ _ =>
    exact .rfl

omit [Scalar α] in
theorem holdsTogether_left {l r : Term α} (hconst : l.isConst = false)
    (h : (product l r).holdsTogether = true) : l.holdsTogether = true := by
  cases l with
  | const c => cases hconst
  | symbol _ | sum _ _ | difference _ _ | product _ _ | quotient _ _ | power _ _ | call _ _ =>
    exact h

theorem unsigned_of_not_hasMinus {t : Term α} (h : t.hasMinus = false) : t.unsigned = t := by
  rw [hasMinus, Option.isSome_eq_false_iff, Option.isNone_iff_eq_none] at h
  rw [unsigned, h]
  rfl

/-! ## Proper trees -/

section Proper

variable [SignedScalar α]

theorem proper_negate {t : Term α} (h : t.Proper) : (negate t).Proper := by
  have hone : Scalar.isFinite (-1 : α) = true := by
    rw [SignedScalar.isFinite_neg]
    exact SignedScalar.isFinite_one
  cases t with
  | const v =>
    change Scalar.isFinite (-v) = true
    rw [SignedScalar.isFinite_neg]
    exact h
  | symbol _ | sum _ _ | difference _ _ | product _ _ | quotient _ _ | power _ _ | call _ _ =>
    exact ⟨hone, h⟩

theorem proper_of_negate {t : Term α} (h : (negate t).Proper) : t.Proper := by
  cases t with
  | const v =>
    change Scalar.isFinite v = true
    rw [← SignedScalar.isFinite_neg]
    exact h
  | symbol _ | sum _ _ | difference _ _ | product _ _ | quotient _ _ | power _ _ | call _ _ =>
    exact h.2

theorem proper_afterCoefficient {c : α} (factor : List Char) {first : Term α → Term α}
    (hc : Scalar.isFinite c = true) (hfirst : ∀ u, u.Proper → (first u).Proper) (u : Term α)
    (hu : u.Proper) : (afterCoefficient c factor first u).Proper := by
  unfold afterCoefficient
  split
  · exact hfirst _ (proper_negate hu)
  · exact ⟨hfirst _ hc, hu⟩

omit [SignedScalar α] in
theorem proper_signed {l r : Term α} (minus : Bool) (hl : l.Proper) (hr : r.Proper) :
    (signed minus l r).Proper := by
  cases minus with
  | false => exact ⟨hl, hr⟩
  | true => exact ⟨hl, hr⟩

/-- What is read of proper numbers has proper numbers. -/
theorem proper_asRead [Numeral α] {t : Term α} (ht : t.Proper) {first : Term α → Term α}
    (hfirst : ∀ u, u.Proper → (first u).Proper) : (t.asRead first).Proper := by
  fun_induction asRead t first with
  | case1 v first => exact hfirst _ ht
  | case2 name first => exact hfirst _ trivial
  | case3 l r first ihl ihr | case4 l r first ihl ihr =>
    exact hfirst _ (proper_signed _ (ihl ht.1 fun _ h => h)
      (ihr (unsigned_of proper_of_withoutMinus? ht.2) fun _ h => h))
  | case5 c r first _ ih =>
    exact proper_afterCoefficient _ ht.1 hfirst _ (ih ht.2 fun _ h => h)
  | case6 c r first _ ih => exact ih ht.2 (proper_afterCoefficient _ ht.1 hfirst)
  | case7 l r first _ ihl ihr | case8 l r first ihl ihr =>
    exact ⟨ihl ht.1 hfirst, ihr ht.2 fun _ h => h⟩
  | case9 b e first ih => exact hfirst _ ⟨ih ht.1 fun _ h => h, ht.2⟩
  | case10 f a first ih => exact hfirst _ (ih ht fun _ h => h)

end Proper

variable [Numeral α] [LawfulNumeral α] [CongruentScalar α]

/-! ## Copies are equal -/

theorem neg_congr {v w : α} (hw : Scalar.isFinite w = true) (h : (v == w) = true) :
    (-v == -w) = true := by
  have hneg : Scalar.isFinite (-w) = true := by rwa [SignedScalar.isFinite_neg]
  have htwice : (-(-w) == w) = true :=
    LawfulNumeral.neg_beq hw (CongruentScalar.beq_self hneg)
  exact LawfulNumeral.neg_beq hneg (BEq.trans h (BEq.symm htwice))

theorem negate_congr {s t : Term α} (ht : t.Proper) (h : (s == t) = true) :
    (negate s == negate t) = true := by
  have hone : ((-1 : α) == -1) = true := by
    refine CongruentScalar.beq_self ?_
    rw [SignedScalar.isFinite_neg]
    exact SignedScalar.isFinite_one
  cases alike_of_beq h with
  | const hv => exact neg_congr ht hv
  | symbol | sum | difference | product | quotient | power | call =>
    exact Bool.and_eq_true_iff.2 ⟨hone, h⟩

/-- A copy of a term with proper numbers equals it. -/
theorem Copies.beq {s t : Term α} (h : s.Copies t) (ht : t.Proper) : (s == t) = true := by
  induction h with
  | const h => exact h
  | symbol name => exact beq_self_eq_true name
  | sum _ _ ihl ihr | difference _ _ ihl ihr | product _ _ ihl ihr | quotient _ _ ihl ihr =>
    exact Bool.and_eq_true_iff.2 ⟨ihl ht.1, ihr ht.2⟩
  | power _ he ih => exact Bool.and_eq_true_iff.2 ⟨ih ht.1, he⟩
  | call f _ ih => exact Bool.and_eq_true_iff.2 ⟨beq_self_eq_true f, ih ht⟩
  | negate _ ih => exact negate_congr (proper_of_negate ht) (ih (proper_of_negate ht))

/-! ## Simplifying what was read -/

section Nodes

omit [Numeral α] [LawfulNumeral α] [CongruentScalar α]

variable {l r b : Term α} {e : α}

theorem simplify_sum (h : plainSum l.simplify r.simplify = true) :
    (sum l r).simplify = sum l.simplify r.simplify :=
  congrArg Simplified.term ((Simplified.add_builds _ _).of_plain h)

theorem simplify_difference (h : plainDifference l.simplify r.simplify = true) :
    (difference l r).simplify = difference l.simplify r.simplify :=
  congrArg Simplified.term ((Simplified.sub_builds _ _).of_plain h)

theorem simplify_product (h : plainProduct l.simplify r.simplify = true) :
    (product l r).simplify = product l.simplify r.simplify :=
  congrArg Simplified.term ((mul_builds _ _).of_plain h)

theorem simplify_quotient (h : plainQuotient l.simplify r.simplify = true) :
    (quotient l r).simplify = quotient l.simplify r.simplify :=
  congrArg Simplified.term ((Simplified.div_builds _ _).of_plain h)

theorem simplify_power (h : plainPower b.simplify e = true) :
    (power b e).simplify = power b.simplify e :=
  congrArg Simplified.term ((Simplified.pow_builds _ _).of_plain h)

end Nodes

variable [UnitalScalar α]

omit [Numeral α] [LawfulNumeral α] in
/-- What is made of a factor after a coefficient is simplified to the product of the two, unless they
can be worked out. -/
theorem simplify_afterCoefficient {c : α} {factor : List Char} {s e t : Term α}
    (ht : t.Proper) (he : e.Proper)
    (hback : ∀ u, (u == e) = true → (u.simplify == t) = true) (hplain : plainMultiple c t = true)
    (hs : (s == afterCoefficient c factor id e) = true) :
    (s.simplify == product (const c) t) = true := by
  -- a product with a number that equals the coefficient
  have hproduct {c' : α} {u : Term α} (hc' : (c' == c) = true) (hu : (u == e) = true) :
      ((product (const c') u).simplify == product (const c) t) = true := by
    have hut := hback u hu
    have hplain' : plainProduct (const c') u.simplify = true :=
      (plainMultiple_congr hc' hut).trans hplain
    rw [simplify_product (l := const c') hplain']
    exact Bool.and_eq_true_iff.2 ⟨hc', hut⟩
  by_cases hsign : takesCoefficient factor = true ∧ (c == -1) = true
  · rw [afterCoefficient_of_sign hsign.1 hsign.2] at hs
    change (s == negate e) = true at hs
    cases e with
    | const v =>
      -- the opposite of a number can always be worked out
      have hvt := hback (const v) (CongruentScalar.beq_self he)
      cases alike_of_beq hvt with
      | @const _ w hvw =>
        have hfinite : Scalar.isFinite (c * w) = true :=
          UnitalScalar.isFinite_opposite hsign.2 ht
        rw [plainMultiple, hfinite] at hplain
        cases hplain
    | symbol _ | sum _ _ | difference _ _ | product _ _ | quotient _ _ | power _ _ | call _ _ =>
      cases alike_of_beq hs with
      | product hl hr =>
        cases alike_of_beq hl with
        | const hone => exact hproduct (BEq.trans hone (BEq.symm hsign.2)) hr
  · rw [not_and_or, Bool.not_eq_true, Bool.not_eq_true] at hsign
    rw [afterCoefficient_of_number hsign, id] at hs
    cases alike_of_beq hs with
    | product hl hr =>
      cases alike_of_beq hl with
      | const hc' => exact hproduct hc' hr

omit [Numeral α] [LawfulNumeral α] [CongruentScalar α] [UnitalScalar α] in
/-- A coefficient before a product may be written before its left factor. -/
theorem plainMultiple_left {c : α} {l r : Term α} (hconst : l.isConst = false)
    (hplain : plainProduct l r = true) (h : plainMultiple c (product l r) = true) :
    plainMultiple c l = true := by
  rw [Simplified.plainProduct_of_not_isConst r hconst] at hplain
  simp only [Bool.and_eq_true] at hplain
  obtain ⟨⟨⟨⟨hfactor, -⟩, hnone⟩, -⟩, -⟩ := hplain
  rw [Simplified.plainMultiple_of_isFactor c (isFactor_product r hfactor)] at h
  rw [Simplified.plainMultiple_of_isFactor c hfactor, hnone]
  exact h

omit [Numeral α] [LawfulNumeral α] [UnitalScalar α] in
/-- A coefficient that was multiplied with the left factor of a product comes to the front. -/
theorem mul_multiple_beq {c : α} {l r s u : Term α} (hconst : l.isConst = false)
    (hplain : plainProduct l r = true) (hmultiple : plainMultiple c (product l r) = true)
    (hs : (s == product (const c) l) = true) (hu : (u == r) = true) :
    ((Simplified.mul s u).term == product (const c) (product l r)) = true := by
  cases alike_of_beq hs with
  | @product a l' _ _ ha hl =>
    cases alike_of_beq ha with
    | @const c' _ hc =>
      have huconst : u.isConst = false := by
        rw [isConst_congr hu]
        rw [Simplified.plainProduct_of_not_isConst r hconst] at hplain
        simp only [Bool.and_eq_true] at hplain
        exact isConst_of_isFactor hplain.1.1.1.2
      have hproduct : (product l' u == product l r) = true := Bool.and_eq_true_iff.2 ⟨hl, hu⟩
      have hmul : Simplified.mul l' u = .same (product l' u) :=
        (mul_builds l' u).of_plain ((plainProduct_congr hl hu).trans hplain)
      have hscale : Simplified.scale c' (product l' u) = .same (product (const c') (product l' u)) :=
        (scale_builds c' _).of_plain ((plainMultiple_congr hc hproduct).trans hmultiple)
      rw [Simplified.mul_multiple_term c' l' huconst, hmul]
      change ((Simplified.scale c' (product l' u)).term == _) = true
      rw [hscale]
      exact Bool.and_eq_true_iff.2 ⟨hc, hproduct⟩

/-- What the text of a term is read as is simplified to the term. What it is read as after a coefficient
is simplified to the product of the two. Both hold of any equal tree as well. -/
structure ReadsBack (t : Term α) : Prop where
  whole (s : Term α) : (s == t.asRead id) = true → (s.simplify == t) = true
  multiple (c : α) (factor : List Char) (s : Term α) : plainMultiple c t = true →
    t.holdsTogether = true →
    (s == t.asRead (afterCoefficient c factor id)) = true →
    (s.simplify == product (const c) t) = true

/-- The text is a single factor. -/
theorem ReadsBack.of_single {t e : Term α} (hread : ∀ first, t.asRead first = first e)
    (ht : t.Proper) (hback : ∀ s, (s == e) = true → (s.simplify == t) = true) : ReadsBack t where
  whole s hs := by
    rw [hread] at hs
    exact hback s hs
  multiple c factor s hplain _ hs := by
    have he : (t.asRead id).Proper := proper_asRead ht fun _ h => h
    rw [hread] at hs he
    exact simplify_afterCoefficient ht he hback hplain hs

/-- What the legible text of a term in normal form is read as is simplified to the term. -/
theorem readsBack {t : Term α} (hnormal : t.Normal) (ht : t.Proper) (hlegible : t.Legible) :
    ReadsBack t := by
  induction t with
  | const v =>
    refine .of_single (e := const v) (fun first => by rw [asRead]) ht ?_
    intro s hs
    cases alike_of_beq hs with
    | const hv => exact hv
  | symbol name =>
    refine .of_single (e := symbol name) (fun first => by rw [asRead]) ht ?_
    intro s hs
    cases alike_of_beq hs with
    | symbol hname => exact hname
  | sum l r ihl ihr =>
    obtain ⟨hl, hr, hplain⟩ := hnormal
    obtain ⟨hllegible, hrlegible, hminus⟩ := hlegible
    refine .of_single (e := sum (l.asRead id) (r.asRead id)) (fun first => ?_) ht ?_
    · rw [asRead, hminus, unsigned_of_not_hasMinus hminus]
      rfl
    · intro s hs
      cases alike_of_beq hs with
      | @sum l' r' _ _ hl' hr' =>
        have hlback := (ihl hl ht.1 hllegible).whole l' hl'
        have hrback := (ihr hr ht.2 hrlegible).whole r' hr'
        rw [simplify_sum ((plainSum_congr hlback hrback).trans hplain)]
        exact Bool.and_eq_true_iff.2 ⟨hlback, hrback⟩
  | difference l r ihl ihr =>
    obtain ⟨hl, hr, hplain⟩ := hnormal
    obtain ⟨hllegible, hrlegible, hminus⟩ := hlegible
    refine .of_single (e := difference (l.asRead id) (r.asRead id)) (fun first => ?_) ht ?_
    · rw [asRead, hminus, unsigned_of_not_hasMinus hminus]
      rfl
    · intro s hs
      cases alike_of_beq hs with
      | @difference l' r' _ _ hl' hr' =>
        have hlback := (ihl hl ht.1 hllegible).whole l' hl'
        have hrback := (ihr hr ht.2 hrlegible).whole r' hr'
        rw [simplify_difference ((plainDifference_congr hlback hrback).trans hplain)]
        exact Bool.and_eq_true_iff.2 ⟨hlback, hrback⟩
  | product l r ihl ihr =>
    obtain ⟨hl, hr, hplain⟩ := hnormal
    cases hconst : l.isConst with
    | true =>
      cases l with
      | const c =>
        obtain ⟨hrlegible, htogether⟩ := hlegible
        have hrback := ihr hr ht.2 hrlegible
        refine ⟨fun s hs => ?_, fun _ _ _ _ htogether => by cases htogether⟩
        rw [asRead] at hs
        split at hs
        · have hrproper : (r.asRead id).Proper := proper_asRead ht.2 fun _ h => h
          exact simplify_afterCoefficient ht.2 hrproper hrback.whole hplain hs
        · next hminus => exact hrback.multiple c _ s hplain (htogether.resolve_left hminus) hs
      | symbol _ | sum _ _ | difference _ _ | product _ _ | quotient _ _ | power _ _ | call _ _ =>
        cases hconst
    | false =>
      obtain ⟨hllegible, hrlegible⟩ := (legible_product hconst).1 hlegible
      have hlback := ihl hl ht.1 hllegible
      have hrback := ihr hr ht.2 hrlegible
      refine ⟨fun s hs => ?_, fun c factor s hmultiple htogether hs => ?_⟩
      · rw [asRead_product hconst] at hs
        cases alike_of_beq hs with
        | @product l' r' _ _ hl' hr' =>
          have hleft := hlback.whole l' hl'
          have hright := hrback.whole r' hr'
          rw [simplify_product ((plainProduct_congr hleft hright).trans hplain)]
          exact Bool.and_eq_true_iff.2 ⟨hleft, hright⟩
      · rw [asRead_product hconst] at hs
        cases alike_of_beq hs with
        | @product l' r' _ _ hl' hr' =>
          -- the coefficient was multiplied with the left operand only
          have hleft := hlback.multiple c factor l' (plainMultiple_left hconst hplain hmultiple)
            (holdsTogether_left hconst htogether) hl'
          have hright := hrback.whole r' hr'
          change ((Simplified.mul l'.simplify r'.simplify).term == _) = true
          exact mul_multiple_beq hconst hplain hmultiple hleft hright
  | quotient l r ihl ihr =>
    obtain ⟨hl, hr, hplain⟩ := hnormal
    refine ⟨fun s hs => ?_, fun _ _ _ _ htogether => by cases htogether⟩
    rw [asRead] at hs
    cases alike_of_beq hs with
    | @quotient l' r' _ _ hl' hr' =>
      have hlback := (ihl hl ht.1 hlegible.1).whole l' hl'
      have hrback := (ihr hr ht.2 hlegible.2).whole r' hr'
      rw [simplify_quotient ((plainQuotient_congr hlback hrback).trans hplain)]
      exact Bool.and_eq_true_iff.2 ⟨hlback, hrback⟩
  | power b e ih =>
    obtain ⟨hb, hplain⟩ := hnormal
    refine .of_single (e := power (b.asRead id) e) (fun first => by rw [asRead]) ht ?_
    intro s hs
    cases alike_of_beq hs with
    | @power b' _ e' _ hb' he' =>
      have hback := (ih hb ht.1 hlegible).whole b' hb'
      rw [simplify_power ((plainPower_congr hback he').trans hplain)]
      exact Bool.and_eq_true_iff.2 ⟨hback, he'⟩
  | call f a ih =>
    refine .of_single (e := call f (a.asRead id)) (fun first => by rw [asRead]) ht ?_
    intro s hs
    cases alike_of_beq hs with
    | @call f' _ a' _ hf ha' =>
      have hback := (ih hnormal ht hlegible).whole a' ha'
      exact Bool.and_eq_true_iff.2 ⟨hf, hback⟩

/-! ## Canonical texts -/

omit [Numeral α] [LawfulNumeral α] [CongruentScalar α] [UnitalScalar α] in
theorem madeOf_isVariable_iff {t : Term α} :
    t.MadeOf (fun name => isVariable name = true) ↔ t.Proper ∧ t.Named := by
  induction t with
  | const _ => exact (and_iff_left trivial).symm
  | symbol _ => exact (and_iff_right trivial).symm
  | sum l r ihl ihr | difference l r ihl ihr | product l r ihl ihr | quotient l r ihl ihr =>
    exact (and_congr ihl ihr).trans and_and_and_comm
  | power b e ih => exact (and_congr_left' ih).trans and_right_comm
  | call f a ih => exact ih

/-- The text of a simplified term in canonical order is read as `asRead` says, unless it is nested too
deeply to be read. If it is legible, simplifying what was read gives the term back if and only if
canonical order left the term in normal form. -/
theorem canonical_text_reads_back [ProperScalar α] {t : Term α} (var : String) (ht : t.Proper)
    (hnamed : t.Named) :
    let c := t.simplify.canonicalize var
    (∃ e : Expr α, Expr.ofText (c.text .caret) = .ok e ∧
      ∃ s enough, (∀ most, enough ≤ most → ofExpr most e = .ok s) ∧
        (s == c.asRead id) = true ∧
        (c.Legible → ((s.simplify == c) = true ↔ c.Normal))) ∨
    ∃ f, Expr.ofText (α := α) (c.text .caret) = .error f ∧
      f.cause = .nestedTooDeeply maxNesting := by
  intro c
  obtain ⟨hcproper, hcnamed⟩ := madeOf_isVariable_iff.1 <| madeOf_canonicalize var <|
    hereditary_madeOf.simplify (madeOf_isVariable_iff.2 ⟨ht, hnamed⟩)
  obtain ⟨e, hspells, heproper, s, height, hcopies, hterm⟩ := text_spells_asRead hcproper hcnamed
  have hequal := hcopies.beq (proper_asRead hcproper fun _ h => h)
  rcases Expr.ofText_of_spells hspells heproper with hread | hdeep
  · refine .inl ⟨e, hread, s, height + 1, fun most hle => hterm most 1 hle, hequal, ?_⟩
    intro hlegible
    constructor
    · intro hback
      exact (Simplified.normal_ofTerm s).congr hback
    · intro hnormal
      exact (readsBack hnormal hcproper hlegible).whole s hequal
  · exact .inr hdeep

instance : ProperScalar ℤ where
  isFinite_zero := rfl
  isFinite_one := rfl
  isFinite_two := rfl
  isFinite_lnTen := rfl
  isFinite_neg _ := rfl
  isFinite_pred _ := rfl

instance : UnitalScalar ℤ where
  isFinite_zero_mul _ _ := rfl
  isFinite_one_mul _ _ := rfl
  isFinite_opposite _ _ := rfl

/-- `3x + 2x^2*sin(x)` is legible, though its second coefficient is read as that of `x^2` only. -/
theorem canonical_text_reads_back_chain :
    let t : Term ℤ := .sum (.product (.symbol "x") (.const 3))
      (.product (.const 2) (.product (.power (.symbol "x") 2) (.call .sin (.symbol "x"))))
    let c := t.simplify.canonicalize "x"
    t.Proper ∧ t.Named ∧ c.Normal ∧ c.Legible ∧
    ((∃ e : Expr ℤ, Expr.ofText (c.text .caret) = .ok e ∧
      ∃ s enough, (∀ most, enough ≤ most → ofExpr most e = .ok s) ∧
        (s == c.asRead id) = true ∧
        (c.Legible → ((s.simplify == c) = true ↔ c.Normal))) ∨
    ∃ f, Expr.ofText (α := ℤ) (c.text .caret) = .error f ∧
      f.cause = .nestedTooDeeply maxNesting) := by
  intro t c
  have hproper : t.Proper := ⟨⟨trivial, rfl⟩, rfl, ⟨trivial, rfl⟩, trivial⟩
  have hnamed : t.Named := by
    have hname : isVariable "x" = true := by decide +kernel
    exact ⟨⟨hname, trivial⟩, trivial, hname, hname⟩
  have hc : c = .sum (.product (.const 3) (.symbol "x"))
      (.product (.const 2) (.product (.power (.symbol "x") 2) (.call .sin (.symbol "x")))) := by
    dsimp only [c, t]
    cbv
  have hnormal : c.Normal := by
    rw [hc]
    exact ⟨⟨trivial, trivial, rfl⟩, ⟨trivial, ⟨⟨trivial, rfl⟩, trivial, rfl⟩, rfl⟩, rfl⟩
  have hlegible : c.Legible := by
    rw [hc]
    exact ⟨⟨trivial, .inr rfl⟩, ⟨⟨trivial, trivial⟩, .inr rfl⟩, rfl⟩
  exact ⟨hproper, hnamed, hnormal, hlegible, canonical_text_reads_back "x" hproper hnamed⟩

/-- The coefficient of `2*(x/y)` is read as that of the numerator, and nothing moves it back. -/
theorem canonical_text_regrouped :
    let t : Term ℤ := .product (.const 2) (.quotient (.symbol "x") (.symbol "y"))
    let c := t.simplify.canonicalize "x"
    t.Proper ∧ t.Named ∧ ∃ (e : Expr ℤ) (s : Term ℤ), Expr.ofText (c.text .caret) = .ok e ∧
      ofExpr 512 e = .ok s ∧ (s.simplify == c) = false := by
  intro t c
  have hname (name : String) (h : name = "x" ∨ name = "y") : isVariable name = true := by
    rcases h with rfl | rfl <;> decide +kernel
  have htext : c.text .caret = "2x/y" := by decide +kernel
  let e : Expr ℤ := .binary ⟨.divide, false, ⟨2, 3⟩⟩
    (.binary ⟨.times, true, ⟨1, 1⟩⟩ (.number 2 ⟨0, 1⟩) (.symbol "x" ⟨1, 2⟩) ⟨0, 2⟩)
    (.symbol "y" ⟨3, 4⟩) ⟨0, 4⟩
  have hread : Expr.ofText "2x/y" = .ok e := by cbv
  refine ⟨⟨rfl, trivial, trivial⟩, ⟨trivial, hname _ (.inl rfl), hname _ (.inr rfl)⟩, e,
    .quotient (.product (.const 2) (.symbol "x")) (.symbol "y"), ?_, rfl, ?_⟩
  · rw [htext]
    exact hread
  · decide +kernel

end Fluxion.Term
