import Fluxion.Proofs.Term.Opposite
import Fluxion.Proofs.Term.Rearrangement

/-!
# Canonical form

A sum is in canonical form if it is grouped to the left and its terms are in descending order. These
are the sums that canonical order leaves alone. It reaches this form unless the negation of the term
that comes to stand first uncovers another sum, as it does for `-(y + x)`, or a term of a smaller
degree: what is uncovered is not put in order any more.
-/

namespace Fluxion

instance : OrderedScalar ℤ where
  atMost_trans {u v w} huv hvw := by
    have huv : u ≤ v := of_decide_eq_true huv
    have hvw : v ≤ w := of_decide_eq_true hvw
    exact decide_eq_true (Int.le_trans huv hvw)
  atMost_total v w := Bool.or_eq_true_iff.2 ((Int.le_total v w).imp decide_eq_true decide_eq_true)

namespace Term

variable {α : Type}

/-! ## Chains -/

/-- Whether a term is grouped to the left: no right operand of its sums is a sum. -/
def isChain : Term α → Bool
  | sum l r | difference l r => l.isChain && !r.isAdditive
  | _ => true

theorem summandsOf_of_not_additive {t : Term α} (h : t.isAdditive = false) (subtracted : Bool) :
    t.summandsOf subtracted = [⟨subtracted, t⟩] := by
  cases t with
  | sum _ _ | difference _ _ => cases h
  | const _ | symbol _ | product _ _ | quotient _ _ | power _ _ | call _ _ => rfl

theorem isChain_of_not_additive {t : Term α} (h : t.isAdditive = false) : t.isChain = true := by
  cases t with
  | sum _ _ | difference _ _ => cases h
  | const _ | symbol _ | product _ _ | quotient _ _ | power _ _ | call _ _ => rfl

theorem isAdditive_of_mem_summandsOf {t : Term α} {subtracted : Bool} {s : Summand α}
    (h : s ∈ t.summandsOf subtracted) : s.term.isAdditive = false := by
  induction t generalizing subtracted with
  | sum l r ihl ihr | difference l r ihl ihr =>
    rcases List.mem_append.1 h with h | h
    · exact ihl h
    · exact ihr h
  | const _ | symbol _ | product _ _ _ _ | quotient _ _ _ _ | power _ _ _ | call _ _ _ =>
    rw [List.mem_singleton.1 h]
    rfl

theorem summands_ne_nil (t : Term α) : t.summands ≠ [] := summandsOf_ne_nil t false

/-- A sum has more than one term. -/
theorem not_additive_of_summands {t : Term α} {s : Summand α} (h : t.summands = [s]) :
    t.isAdditive = false := by
  cases t with
  | sum l r | difference l r =>
    rcases List.append_eq_singleton_iff.1 h with ⟨hl, -⟩ | ⟨-, hr⟩
    · exact absurd hl (summandsOf_ne_nil l _)
    · exact absurd hr (summandsOf_ne_nil r _)
  | const _ | symbol _ | product _ _ | quotient _ _ | power _ _ | call _ _ => rfl

theorem summands_append {s : Summand α} (u : Term α) (h : s.term.isAdditive = false) :
    (u.append s).summands = u.summands ++ [s] := by
  obtain ⟨subtracted, t⟩ := s
  cases subtracted with
  | false => exact congrArg (u.summands ++ ·) (summandsOf_of_not_additive h false)
  | true => exact congrArg (u.summands ++ ·) (summandsOf_of_not_additive h true)

theorem isChain_append {s : Summand α} (u : Term α) (h : s.term.isAdditive = false) :
    (u.append s).isChain = u.isChain := by
  unfold append
  split <;> simp only [isChain, h, Bool.not_false, Bool.and_true]

theorem summands_foldl_append {rest : List (Summand α)} (u : Term α)
    (h : ∀ s ∈ rest, s.term.isAdditive = false) :
    (rest.foldl append u).summands = u.summands ++ rest := by
  induction rest generalizing u with
  | nil => exact (List.append_nil _).symm
  | cons s rest ih =>
    obtain ⟨hs, hrest⟩ := List.forall_mem_cons.1 h
    rw [List.foldl_cons, ih _ hrest, summands_append u hs, List.append_assoc]
    rfl

theorem isChain_foldl_append {rest : List (Summand α)} (u : Term α)
    (h : ∀ s ∈ rest, s.term.isAdditive = false) :
    (rest.foldl append u).isChain = u.isChain := by
  induction rest generalizing u with
  | nil => rfl
  | cons s rest ih =>
    obtain ⟨hs, hrest⟩ := List.forall_mem_cons.1 h
    rw [List.foldl_cons, ih _ hrest, isChain_append u hs]

variable [Scalar α]

theorem ofSummands_concat {ss : List (Summand α)} (h : ss ≠ []) (s : Summand α) :
    ofSummands (ss ++ [s]) = (ofSummands ss).append s := by
  cases ss with
  | nil => exact absurd rfl h
  | cons first rest => exact List.foldl_append

/-- A chain is what its terms are joined to. -/
theorem ofSummands_summands {t : Term α} (h : t.isChain = true) : ofSummands t.summands = t := by
  induction t with
  | sum l r ihl _ =>
    simp only [isChain, Bool.and_eq_true, Bool.not_eq_true'] at h
    change ofSummands (l.append ⟨false, r⟩).summands = l.append ⟨false, r⟩
    rw [summands_append l h.2, ofSummands_concat (summands_ne_nil l), ihl h.1]
  | difference l r ihl _ =>
    simp only [isChain, Bool.and_eq_true, Bool.not_eq_true'] at h
    change ofSummands (l.append ⟨true, r⟩).summands = l.append ⟨true, r⟩
    rw [summands_append l h.2, ofSummands_concat (summands_ne_nil l), ihl h.1]
  | const _ | symbol _ | product _ _ _ _ | quotient _ _ _ _ | power _ _ _ | call _ _ _ => rfl

/-! ## Terms in order -/

/-- The term is grouped to the left, and the terms of its sum are in descending order of their
degree. -/
structure InOrder (var : String) (t : Term α) : Prop where
  chain : t.isChain = true
  descending : t.summands.Pairwise fun a b => mayPrecede var a b = true

theorem inOrder_of_not_additive (var : String) {t : Term α} (h : t.isAdditive = false) :
    t.InOrder var where
  chain := isChain_of_not_additive h
  descending := by
    rw [summands, summandsOf_of_not_additive h]
    exact List.pairwise_singleton _ _

/-- The terms of a sum are one that comes to stand first and others after it, and none of them is
itself a sum. -/
theorem exists_sortedSummands_eq (var : String) (t : Term α) :
    ∃ s rest, t.sortedSummands var = s :: rest ∧ s.term.isAdditive = false ∧
      ∀ u ∈ rest, u.term.isAdditive = false := by
  have hterms : ∀ s ∈ t.sortedSummands var, s.term.isAdditive = false := fun s hs =>
    isAdditive_of_mem_summandsOf ((sortedSummands_perm var t).mem_iff.1 hs)
  cases hsorted : t.sortedSummands var with
  | nil => exact absurd hsorted (sortedSummands_ne_nil var t)
  | cons s rest =>
    rw [hsorted] at hterms
    obtain ⟨hs, hrest⟩ := List.forall_mem_cons.1 hterms
    exact ⟨s, rest, rfl, hs, hrest⟩

/-- Whether the term that comes to stand first fits there. One that is added always does. One that is
subtracted is negated, and then it has to be in order, and to precede the others by its degree. -/
def FrontFits (var : String) : List (Summand α) → Prop
  | [] => True
  | s :: rest => s.subtracted = true → (Simplified.neg s.term).term.InOrder var ∧
      ∀ a ∈ (Simplified.neg s.term).term.summands, ∀ b ∈ rest, mayPrecede var a b = true

section Ordered

variable [OrderedScalar α]

theorem pairwise_sortedSummands (var : String) (t : Term α) :
    (t.sortedSummands var).Pairwise fun a b => mayPrecede var a b = true :=
  List.pairwise_mergeSort (mayPrecede_trans var) (mayPrecede_total var) _

/-- Canonical order leaves exactly those terms alone that are in order. -/
theorem canonicalize_eq_self_iff (var : String) (t : Term α) :
    t.canonicalize var = t ↔ t.InOrder var := by
  cases hadditive : t.isAdditive with
  | false =>
    exact iff_of_true (canonicalize_of_not_additive var hadditive)
      (inOrder_of_not_additive var hadditive)
  | true =>
    rw [canonicalize_of_additive var hadditive]
    constructor
    · intro h
      obtain ⟨s, rest, hsorted, -, hrest⟩ := exists_sortedSummands_eq var t
      have hjoined : rest.foldl append (ofFirst s) = t := by
        rw [hsorted] at h
        exact h
      have hterms : t.summands = (ofFirst s).summands ++ rest := by
        rw [← summands_foldl_append _ hrest, hjoined]
      -- the others are the same on both sides, so that the first is left for the first
      have hfirst : (ofFirst s).summands = [s] := by
        have hperm := sortedSummands_perm var t
        rw [hsorted, hterms] at hperm
        exact (List.singleton_perm.1 ((List.perm_append_right_iff rest).1 hperm)).symm
      refine ⟨?_, ?_⟩
      · rw [← hjoined, isChain_foldl_append _ hrest]
        exact isChain_of_not_additive (not_additive_of_summands hfirst)
      · have hordered := pairwise_sortedSummands var t
        rw [hsorted] at hordered
        rw [hterms, hfirst]
        exact hordered
    · intro h
      rw [sortedSummands, List.mergeSort_of_pairwise h.descending]
      exact ofSummands_summands h.chain

/-- What canonical order gives is in order if and only if the term in front fits there. -/
theorem inOrder_canonicalize_iff (var : String) (t : Term α) :
    (t.canonicalize var).InOrder var ↔ FrontFits var (t.sortedSummands var) := by
  cases hadditive : t.isAdditive with
  | false =>
    rw [canonicalize_of_not_additive var hadditive, sortedSummands, summands,
      summandsOf_of_not_additive hadditive, List.mergeSort_singleton]
    exact iff_of_true (inOrder_of_not_additive var hadditive) fun h => by cases h
  | true =>
    obtain ⟨s, rest, hsorted, hs, hrest⟩ := exists_sortedSummands_eq var t
    have hordered := pairwise_sortedSummands var t
    rw [canonicalize_of_additive var hadditive]
    rw [hsorted] at hordered ⊢
    obtain ⟨hbefore, hothers⟩ := List.pairwise_cons.1 hordered
    have hfront : (ofSummands (s :: rest)).InOrder var ↔ (ofFirst s).InOrder var ∧
        ∀ a ∈ (ofFirst s).summands, ∀ b ∈ rest, mayPrecede var a b = true := by
      have hchain := isChain_foldl_append (ofFirst s) hrest
      have hterms := summands_foldl_append (ofFirst s) hrest
      constructor
      · rintro ⟨h, hdescending⟩
        rw [ofSummands, hterms, List.pairwise_append] at hdescending
        exact ⟨⟨hchain.symm.trans h, hdescending.1⟩, hdescending.2.2⟩
      · rintro ⟨⟨h, hdescending⟩, hprecedes⟩
        refine ⟨hchain.trans h, ?_⟩
        rw [ofSummands, hterms, List.pairwise_append]
        exact ⟨hdescending, hothers, hprecedes⟩
    rw [hfront]
    obtain ⟨subtracted, u⟩ := s
    cases subtracted with
    | true => exact ⟨fun h _ => h, fun h => h rfl⟩
    | false =>
      refine iff_of_true ⟨inOrder_of_not_additive var hs, ?_⟩ fun h => by cases h
      intro a ha
      rw [ofFirst, if_neg Bool.false_ne_true, summands, summandsOf_of_not_additive hs,
        List.mem_singleton] at ha
      rw [ha]
      exact hbefore

end Ordered

/-! ## Simplified terms -/

/-- Negation does not change the degree of a term in normal form. -/
theorem degree_of_negated (var : String) {s t : Term α} (h : Negated s t) :
    t.degree var = s.degree var := by
  cases h <;> rfl

/-- Negation uncovers a sum only by dropping its coefficient. -/
theorem exists_of_negated_additive {s t : Term α} (h : Negated s t) (hs : s.isAdditive = false)
    (ht : t.isAdditive = true) : ∃ d, s = .product (.const d) t := by
  cases h with
  | constant | multiple | coefficient | reciprocal => cases ht
  | dropped d _ => exact ⟨d, rfl⟩

/-- In a simplified term, the term in front does not fit only if it is a subtracted sum whose
coefficient is dropped by negation. -/
theorem exists_of_not_frontFits [OrderedScalar α] [SymmetricScalar α] (var : String) {t : Term α}
    (hnormal : t.Normal) (h : ¬ FrontFits var (t.sortedSummands var)) :
    ∃ d u rest, t.sortedSummands var = ⟨true, .product (.const d) u⟩ :: rest ∧
      u.isAdditive = true ∧ (Simplified.neg (.product (.const d) u)).term = u := by
  obtain ⟨⟨subtracted, s⟩, rest, hsorted, hs, -⟩ := exists_sortedSummands_eq var t
  have hbefore := pairwise_sortedSummands var t
  have hmem : ⟨subtracted, s⟩ ∈ t.summands := by
    rw [← (sortedSummands_perm var t).mem_iff, hsorted]
    exact List.mem_cons_self
  rw [hsorted] at h hbefore
  cases hadditive : t.isAdditive with
  | false =>
    rw [summands, summandsOf_of_not_additive hadditive, List.mem_singleton] at hmem
    cases hmem
    exact absurd (fun hsub => by cases hsub) h
  | true =>
    have hnegated : Negated s (Simplified.neg s).term :=
      Simplified.neg_spec (normal_of_mem_summandsOf hnormal (isValue_of_isAdditive 0 hadditive)
        false hmem).1
    cases subtracted with
    | false => exact absurd (fun hsub => by cases hsub) h
    | true =>
      cases hopposite : (Simplified.neg s).term.isAdditive with
      | true =>
        obtain ⟨d, hd⟩ := exists_of_negated_additive hnegated hs hopposite
        refine ⟨d, (Simplified.neg s).term, rest, ?_, hopposite, ?_⟩
        · rw [hsorted, ← hd]
        · rw [← hd]
      | false =>
        refine absurd (fun _ => ⟨inOrder_of_not_additive var hopposite, ?_⟩) h
        intro a ha b hb
        rw [summands, summandsOf_of_not_additive hopposite, List.mem_singleton] at ha
        have hprecedes : mayPrecede var ⟨true, s⟩ b = true := (List.pairwise_cons.1 hbefore).1 b hb
        rw [mayPrecede] at hprecedes ⊢
        rwa [ha, degree_of_negated var hnegated]

section Ordered

variable [OrderedScalar α]

/-- Canonical order is final exactly where its outcome is in order, and this is exactly where the
term in front fits. In a simplified term it is only a subtracted sum whose coefficient is dropped by
negation that does not fit. -/
theorem canonicalize_canonical_iff (var : String) (t : Term α) :
    ((t.canonicalize var).canonicalize var = t.canonicalize var ↔
      (t.canonicalize var).InOrder var) ∧
    ((t.canonicalize var).InOrder var ↔ FrontFits var (t.sortedSummands var)) ∧
    (SymmetricScalar α → t.simplify = t → ¬ FrontFits var (t.sortedSummands var) →
      ∃ d u rest, t.sortedSummands var = ⟨true, .product (.const d) u⟩ :: rest ∧
        u.isAdditive = true ∧ (Simplified.neg (.product (.const d) u)).term = u) := by
  refine ⟨canonicalize_eq_self_iff var _, inOrder_canonicalize_iff var t, ?_⟩
  intro hsymmetric hsimple
  exact exists_of_not_frontFits var ((Simplified.simplify_eq_self_iff t).1 hsimple)

/-- In `1 - (x^3 - y)` the power comes to stand first, and its negation fits there. In
`x^(-1) - -(y + x)` the subtracted sum does, and its negation is the sum itself. -/
theorem canonicalize_canonical_iff_powers :
    let t : Term ℤ :=
      .difference (.const 1) (.difference (.power (.symbol "x") 3) (.symbol "y"))
    let u : Term ℤ := .sum (.symbol "y") (.symbol "x")
    let v : Term ℤ := .difference (.power (.symbol "x") (-1)) (.product (.const (-1)) u)
    (FrontFits "x" (t.sortedSummands "x") ∧ (t.canonicalize "x").InOrder "x" ∧
      (t.canonicalize "x").canonicalize "x" = t.canonicalize "x") ∧
    v.simplify = v ∧ ¬ FrontFits "x" (v.sortedSummands "x") ∧
      ∃ d w rest, v.sortedSummands "x" = ⟨true, .product (.const d) w⟩ :: rest ∧
        w.isAdditive = true ∧ (Simplified.neg (.product (.const d) w)).term = w := by
  intro t u v
  have ht : t.sortedSummands "x" =
      [⟨true, .power (.symbol "x") 3⟩, ⟨false, .const 1⟩, ⟨false, .symbol "y"⟩] := by cbv
  have hv : v.sortedSummands "x" =
      [⟨true, .product (.const (-1)) u⟩, ⟨false, .power (.symbol "x") (-1)⟩] := by cbv
  have hfits : FrontFits "x" (t.sortedSummands "x") := by
    rw [ht]
    intro _
    refine ⟨inOrder_of_not_additive "x" rfl, ?_⟩
    decide +kernel
  have hunfit : ¬ FrontFits "x" (v.sortedSummands "x") := by
    rw [hv]
    intro h
    have hdescending := (h rfl).1.descending
    revert hdescending
    decide +kernel
  have hlaw := canonicalize_canonical_iff "x" t
  have horder := hlaw.2.1.2 hfits
  exact ⟨⟨hfits, horder, hlaw.1.2 horder⟩, rfl, hunfit,
    (canonicalize_canonical_iff "x" v).2.2 inferInstance rfl hunfit⟩

/-- The sum that is uncovered in `x^(-1) - -(y + x)` is not put in order: the outcome is
`y + x + x^(-1)`. -/
theorem canonicalize_not_idempotent :
    let u : Term Float := .sum (.symbol "y") (.symbol "x")
    let power : Term Float := .power (.symbol "x") (-1)
    let t : Term Float := .difference power (.product (.const (-1)) u)
    (t.simplify == t) = true ∧ t.canonicalize "x" = .sum u power ∧
      (t.canonicalize "x").canonicalize "x" ≠ t.canonicalize "x" := by
  intro u power t
  have hsorted : t.sortedSummands "x" = [⟨true, .product (.const (-1)) u⟩, ⟨false, power⟩] := by
    refine (stablySorted_mergeSort "x" t.summands).unique ?_
    refine ⟨[(⟨true, .product (.const (-1)) u⟩, 1), (⟨false, power⟩, 0)], .swap _ _ _, rfl, ?_⟩
    exact List.pairwise_pair.2 ⟨by decide +kernel, fun h => absurd h (by decide +kernel)⟩
  have hneg : (Simplified.neg (.product (.const (-1)) u)).term = u := by
    rw [Simplified.neg, Simplified.scale, Simplified.scaleBy_of_ne, if_pos]
    · change (Simplified.scaleBy _ u _).term = u
      rw [Simplified.scaleBy, if_neg, if_pos]
      · rfl
      all_goals decide +kernel
    all_goals decide +kernel
  have houtcome : t.canonicalize "x" = .sum u power := by
    rw [canonicalize_of_additive "x" rfl, hsorted]
    exact congrArg (Term.sum · power) hneg
  refine ⟨by decide +kernel, houtcome, ?_⟩
  rw [houtcome, ne_eq, canonicalize_eq_self_iff]
  intro h
  have hdescending := h.descending
  revert hdescending
  decide +kernel

end Ordered

end Term

end Fluxion
