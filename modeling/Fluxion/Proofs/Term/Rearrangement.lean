import Fluxion.Proofs.Scalar.Exact
import Fluxion.Proofs.Term.CanonicalValue
import Fluxion.Scalar.Binary64

/-!
# Canonical order rearranges

What canonical order does to a sum, without regard to how it is done. The terms of a sum lie at the
ends of the ways through its sums and differences, and a way tells the sign of the term at its end.
These terms are sorted, with none lost and none doubled, and those of equal degree as they stood.
Then they are joined from left to right, and only a subtracted term that stands first is changed: it
is negated.
-/

namespace Fluxion

/-- Numbers that are totally ordered. -/
class OrderedScalar (α : Type) [Scalar α] : Prop where
  atMost_trans {u v w : α} :
    Scalar.atMost u v = true → Scalar.atMost v w = true → Scalar.atMost u w = true
  atMost_total (v w : α) : (Scalar.atMost v w || Scalar.atMost w v) = true

instance : OrderedScalar Float where
  atMost_trans {u v w} huv hvw := by
    have huv : Binary64.orderKey u ≤ Binary64.orderKey v := of_decide_eq_true huv
    have hvw : Binary64.orderKey v ≤ Binary64.orderKey w := of_decide_eq_true hvw
    exact decide_eq_true (Int.le_trans huv hvw)
  atMost_total v w := by
    have htotal := Int.le_total (Binary64.orderKey v) (Binary64.orderKey w)
    exact Bool.or_eq_true_iff.2 (htotal.imp decide_eq_true decide_eq_true)

instance : OrderedScalar ℝ where
  atMost_trans {u v w} huv hvw := by
    have huv : u ≤ v := of_decide_eq_true huv
    have hvw : v ≤ w := of_decide_eq_true hvw
    exact decide_eq_true (huv.trans hvw)
  atMost_total v w := Bool.or_eq_true_iff.2 ((le_total v w).imp decide_eq_true decide_eq_true)

namespace Term

variable {α : Type}

/-! ## The terms of a sum -/

/-- A turn on the way from a sum to one of its terms. -/
inductive Turn where
  /-- Into the left operand. -/
  | left
  /-- Into the right operand of a sum. -/
  | addend
  /-- Into the right operand of a difference. -/
  | subtrahend
  deriving DecidableEq, Repr

/-- The terms of a chain of sums and differences from left to right, each with the way to it. -/
def waysToTerms : Term α → List (List Turn × Term α)
  | sum l r =>
    l.waysToTerms.map (fun p => (.left :: p.1, p.2)) ++
      r.waysToTerms.map (fun p => (.addend :: p.1, p.2))
  | difference l r =>
    l.waysToTerms.map (fun p => (.left :: p.1, p.2)) ++
      r.waysToTerms.map (fun p => (.subtrahend :: p.1, p.2))
  | t => [([], t)]

/-- The term at the end of a way, with its sign: it is subtracted if it lies in the right operands of
an odd number of differences. -/
def signedTerm (p : List Turn × Term α) : Summand α :=
  ⟨decide (Odd (p.1.count .subtrahend)), p.2⟩

theorem subtracted_signedTerm_subtrahend (way : List Turn) (t : Term α) :
    (signedTerm (.subtrahend :: way, t)).subtracted = !(signedTerm (way, t)).subtracted := by
  simp only [signedTerm, List.count_cons_self, Nat.odd_add_one, decide_not]

/-- The terms of a sum with their signs. A term of a sum that is itself subtracted has the opposite
sign. -/
theorem summandsOf_eq (t : Term α) (subtracted : Bool) :
    t.summandsOf subtracted =
      t.waysToTerms.map fun p => ⟨subtracted ^^ (signedTerm p).subtracted, p.2⟩ := by
  induction t generalizing subtracted with
  | sum l r ihl ihr =>
    rw [summandsOf, waysToTerms, ihl, ihr, List.map_append, List.map_map, List.map_map]
    rfl
  | difference l r ihl ihr =>
    rw [summandsOf, waysToTerms, ihl, ihr, List.map_append, List.map_map, List.map_map]
    congr 1
    refine List.map_congr_left fun p _ => ?_
    have hopposite := subtracted_signedTerm_subtrahend p.1 p.2
    rw [Function.comp_apply, hopposite, Bool.not_xor, Bool.xor_not]
  | const _ | symbol _ | product _ _ _ _ | quotient _ _ _ _ | power _ _ _ | call _ _ _ =>
    simp [summandsOf, waysToTerms, signedTerm]

theorem summands_eq_signedTerms (t : Term α) : t.summands = t.waysToTerms.map signedTerm := by
  rw [summands, summandsOf_eq]
  simp [signedTerm]

theorem summandsOf_ne_nil (t : Term α) (subtracted : Bool) : t.summandsOf subtracted ≠ [] := by
  induction t generalizing subtracted with
  | sum l r ihl _ | difference l r ihl _ => exact List.append_ne_nil_of_left_ne_nil (ihl _) _
  | const _ | symbol _ | product _ _ _ _ | quotient _ _ _ _ | power _ _ _ | call _ _ _ =>
    exact List.cons_ne_nil _ _

/-! ## Sorting -/

section Sorting

variable [Scalar α]

/-- The terms in descending order of their degree, and those of equal degree in the order in which
they stood: every term is placed once, with the number that it had. -/
def StablySorted (var : String) (terms sorted : List (Summand α)) : Prop :=
  ∃ placed : List (Summand α × Nat), placed.Perm terms.zipIdx ∧ placed.map Prod.fst = sorted ∧
    placed.Pairwise fun p q =>
      mayPrecede var p.1 q.1 = true ∧ (mayPrecede var q.1 p.1 = true → p.2 < q.2)

/-- The terms of a sum in the order in which canonical order joins them. -/
def sortedSummands (var : String) (t : Term α) : List (Summand α) :=
  t.summands.mergeSort (mayPrecede var)

theorem sortedSummands_perm (var : String) (t : Term α) :
    (t.sortedSummands var).Perm t.summands := List.mergeSort_perm _ _

theorem sortedSummands_ne_nil (var : String) (t : Term α) : t.sortedSummands var ≠ [] := by
  intro hnil
  have hperm := sortedSummands_perm var t
  rw [hnil] at hperm
  exact summandsOf_ne_nil t false hperm.nil_eq.symm

theorem canonicalize_of_additive (var : String) {t : Term α} (h : t.isAdditive = true) :
    t.canonicalize var = ofSummands (t.sortedSummands var) := if_pos h

theorem canonicalize_of_not_additive (var : String) {t : Term α} (h : t.isAdditive = false) :
    t.canonicalize var = t := by
  unfold canonicalize
  rw [h]
  rfl

variable [OrderedScalar α]

theorem mayPrecede_trans (var : String) (s t u : Summand α) (hst : mayPrecede var s t = true)
    (htu : mayPrecede var t u = true) : mayPrecede var s u = true :=
  OrderedScalar.atMost_trans htu hst

theorem mayPrecede_total (var : String) (s t : Summand α) :
    (mayPrecede var s t || mayPrecede var t s) = true :=
  OrderedScalar.atMost_total _ _

theorem stablySorted_mergeSort (var : String) (terms : List (Summand α)) :
    StablySorted var terms (terms.mergeSort (mayPrecede var)) := by
  have hperm := List.mergeSort_perm terms.zipIdx (List.zipIdxLE (mayPrecede var))
  have hsorted := List.pairwise_mergeSort (List.zipIdxLE_trans (mayPrecede_trans (α := α) var))
    (List.zipIdxLE_total (mayPrecede_total var)) terms.zipIdx
  have hdistinct : (terms.zipIdx.mergeSort (List.zipIdxLE (mayPrecede var))).Pairwise
      fun p q => p.2 ≠ q.2 := by
    have hnodup := List.nodup_zipIdx_map_snd terms
    rw [← (hperm.map Prod.snd).nodup_iff] at hnodup
    exact List.pairwise_map.1 hnodup
  refine ⟨_, hperm, List.mergeSort_zipIdx, (hsorted.and hdistinct).imp ?_⟩
  rintro p q ⟨hle, hne⟩
  unfold List.zipIdxLE at hle
  split at hle
  · next hpq =>
    refine ⟨hpq, fun hqp => ?_⟩
    rw [if_pos hqp] at hle
    exact Nat.lt_of_le_of_ne (of_decide_eq_true hle) hne
  · cases hle

omit [OrderedScalar α] in
/-- There is one way to sort. -/
theorem StablySorted.unique {var : String} {terms ss ss' : List (Summand α)}
    (h : StablySorted var terms ss) (h' : StablySorted var terms ss') : ss = ss' := by
  obtain ⟨placed, hperm, rfl, hsorted⟩ := h
  obtain ⟨placed', hperm', rfl, hsorted'⟩ := h'
  have hplaced : placed = placed' := by
    refine List.Perm.eq_of_pairwise ?_ hsorted hsorted' (hperm.trans hperm'.symm)
    intro p q _ _ hpq hqp
    exact absurd (hpq.2 hqp.1) (Nat.lt_asymm (hqp.2 hpq.1))
  rw [hplaced]

end Sorting

/-! ## Joining -/

section Joining

variable [Scalar α]

/-- Signed terms joined from left to right. Only the first one is changed if it is subtracted. -/
inductive Joins : List (Summand α) → Term α → Prop
  | added (t : Term α) : Joins [⟨false, t⟩] t
  | negated (t : Term α) : Joins [⟨true, t⟩] (Simplified.neg t).term
  | plus {ss : List (Summand α)} {u : Term α} (t : Term α) : Joins ss u →
    Joins (ss ++ [⟨false, t⟩]) (.sum u t)
  | minus {ss : List (Summand α)} {u : Term α} (t : Term α) : Joins ss u →
    Joins (ss ++ [⟨true, t⟩]) (.difference u t)

theorem Joins.append {ss : List (Summand α)} {u : Term α} (h : Joins ss u) (s : Summand α) :
    Joins (ss ++ [s]) (u.append s) := by
  obtain ⟨subtracted, t⟩ := s
  cases subtracted with
  | false => exact .plus t h
  | true => exact .minus t h

theorem Joins.foldl_append {ss rest : List (Summand α)} {u : Term α} (h : Joins ss u) :
    Joins (ss ++ rest) (rest.foldl Term.append u) := by
  induction rest generalizing ss u with
  | nil =>
    rw [List.append_nil]
    exact h
  | cons s rest ih =>
    have hmore := ih (h.append s)
    rwa [List.append_assoc] at hmore

theorem joins_ofSummands {ss : List (Summand α)} (h : ss ≠ []) : Joins ss (ofSummands ss) := by
  cases ss with
  | nil => exact absurd rfl h
  | cons s rest =>
    have hfirst : Joins [s] (ofFirst s) := by
      obtain ⟨subtracted, t⟩ := s
      cases subtracted with
      | false => exact .added t
      | true => exact .negated t
    exact hfirst.foldl_append

end Joining

variable [Scalar α] [OrderedScalar α]

/-- Canonical order changes sums and differences only, and joins exactly their terms, each with its
sign, in the one order that is stably sorted by degree. If numbers are exact, it keeps the value of a
term that has one. -/
theorem canonicalize_rearranges (var : String) (t : Term α) :
    (∀ (K : Type) [Field K] (m : Interpretation α K), m.Exact → ∀ (env : String → K) (x : K),
      t.eval? m env = some x → (t.canonicalize var).eval? m env = some x) ∧
    (t.isAdditive = false → t.canonicalize var = t) ∧
    (t.isAdditive = true → ∃ sorted,
      (∀ ss, StablySorted var (t.waysToTerms.map signedTerm) ss ↔ ss = sorted) ∧
      Joins sorted (t.canonicalize var)) := by
  refine ⟨fun K _ m hm env => refines_canonicalize hm var t, canonicalize_of_not_additive var,
    fun h => ?_⟩
  have hsorted : StablySorted var t.summands (t.sortedSummands var) := stablySorted_mergeSort var _
  refine ⟨t.sortedSummands var, fun ss => ?_, ?_⟩
  · rw [← summands_eq_signedTerms]
    constructor
    · exact fun hss => hss.unique hsorted
    · rintro rfl
      exact hsorted
  · rw [canonicalize_of_additive var h]
    exact joins_ofSummands (sortedSummands_ne_nil var t)

/-- The law at `1 - (x^3 - y)` for `x = 2` and `y = 5`. The power comes to stand first; it lies in the
right operand of one difference, and `y` in those of two. -/
theorem canonicalize_rearranges_power :
    let t : Term ℝ := .difference (.const 1) (.difference (.power (.symbol "x") 3) (.symbol "y"))
    let env : String → ℝ := fun name => if name = "x" then 2 else 5
    (Interpretation.smooth : Interpretation ℝ ℝ).Exact ∧
      t.eval? .smooth env = some (-2) ∧
      (t.canonicalize "x").eval? .smooth env = some (-2) ∧
      ∃ sorted, (∀ ss, StablySorted "x" [⟨false, .const 1⟩, ⟨true, .power (.symbol "x") 3⟩,
        ⟨false, .symbol "y"⟩] ss ↔ ss = sorted) ∧ Joins sorted (t.canonicalize "x") := by
  intro t env
  have hcube : (2 : ℝ) ^ (3 : ℝ) = 8 := by norm_num
  have hpower : (Term.power (.symbol "x") 3 : Term ℝ).eval? .smooth env = some 8 :=
    eval?_power.2 ⟨2, eval?_symbol.2 (if_pos rfl),
      Interpretation.power_smooth.2 ⟨⟨rfl, .inl two_pos⟩, hcube⟩⟩
  have hy : (Term.symbol "y" : Term ℝ).eval? .smooth env = some 5 :=
    eval?_symbol.2 (if_neg (by decide))
  have ht : t.eval? .smooth env = some (-2) :=
    eval?_difference.2 ⟨1, eval?_const.2 ⟨rfl, rfl⟩, 8 - 5,
      eval?_difference.2 ⟨8, hpower, 5, hy, rfl⟩, by norm_num⟩
  have hways : t.waysToTerms.map signedTerm = [⟨false, .const 1⟩, ⟨true, .power (.symbol "x") 3⟩,
      ⟨false, .symbol "y"⟩] := by
    rw [← summands_eq_signedTerms]
    rfl
  obtain ⟨hvalue, -, hsorted⟩ := canonicalize_rearranges "x" t
  rw [hways] at hsorted
  exact ⟨Interpretation.exact_smooth, ht, hvalue ℝ _ Interpretation.exact_smooth env _ ht,
    hsorted rfl⟩

end Term

end Fluxion
