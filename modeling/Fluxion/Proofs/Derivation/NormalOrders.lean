import Fluxion.Proofs.Derivation.Orders
import Fluxion.Proofs.Term.Opposite

/-!
# Derivatives in normal form

Every derivative is simplified before its sum is put in order, and never afterwards. Putting a sum
in order keeps each of its terms, so that these are in normal form in any case, but it may bring
constants together that stood apart. This is all that it can undo: a derivative is in normal form
unless its sum begins with constants that can be worked out.
-/

namespace Fluxion

namespace Term

variable {α : Type} [Scalar α]

/-- Whether constants at the beginning of a chain of sums and differences can be worked out. -/
def frontFolds : Term α → Bool
  | sum l r => foldable (· + ·) l r || l.frontFolds
  | difference l r => foldable (· - ·) l r || l.frontFolds
  | _ => false

theorem frontFolds_of_normal {t : Term α} (h : t.Normal) : t.frontFolds = false := by
  induction t with
  | sum l r ihl _ | difference l r ihl _ =>
    obtain ⟨hl, -, hplain⟩ := h
    obtain ⟨⟨hfold, -⟩, -⟩ : (_ ∧ _) ∧ _ := by
      simpa only [plainSum, plainDifference, Bool.and_eq_true, Bool.not_eq_true'] using hplain
    exact Bool.or_eq_false_iff.2 ⟨hfold, ihl hl⟩
  | const _ | symbol _ | product _ _ _ _ | quotient _ _ _ _ | power _ _ _ | call _ _ _ => rfl

/-- A sum that is built from the left is not zero, and only its beginning can keep it from being in
normal form. -/
def FrontNormal (t : Term α) : Prop :=
  t.isValue 0 = false ∧ (t.Normal ↔ t.frontFolds = false)

theorem FrontNormal.of_normal {t : Term α} (h : t.Normal) (hzero : t.isValue 0 = false) :
    t.FrontNormal :=
  ⟨hzero, fun _ => frontFolds_of_normal h, fun _ => h⟩

theorem FrontNormal.append {t : Term α} {s : Summand α} (ht : t.FrontNormal)
    (hs : s.term.Normal) (hzero : s.term.isValue 0 = false) : (t.append s).FrontNormal := by
  obtain ⟨htzero, htnormal⟩ := ht
  unfold Term.append
  split
  · refine ⟨rfl, ?_⟩
    simp only [Normal, frontFolds, plainDifference, htnormal, htzero, hzero, hs]
    simp [and_comm]
  · refine ⟨rfl, ?_⟩
    simp only [Normal, frontFolds, plainSum, htnormal, htzero, hzero, hs]
    simp [and_comm]

theorem FrontNormal.foldl_append {t : Term α} {rest : List (Summand α)} (ht : t.FrontNormal)
    (hrest : ∀ s ∈ rest, s.term.Normal ∧ s.term.isValue 0 = false) :
    (rest.foldl Term.append t).FrontNormal := by
  induction rest generalizing t with
  | nil => exact ht
  | cons s rest ih =>
    obtain ⟨hs, hzero⟩ := hrest s List.mem_cons_self
    exact ih (ht.append hs hzero) fun u hu => hrest u (List.mem_cons_of_mem s hu)

variable [SymmetricScalar α]

theorem frontNormal_ofFirst {s : Summand α} (h : s.term.Normal) (hzero : s.term.isValue 0 = false) :
    (ofFirst s).FrontNormal := by
  unfold ofFirst
  split
  · exact .of_normal (Simplified.normal_neg h) (isValue_zero_of_negated (Simplified.neg_spec h) hzero)
  · exact .of_normal h hzero

/-- Canonical order keeps a term in normal form, unless it brings constants together at the
beginning. -/
theorem normal_canonicalize_iff (var : String) {t : Term α} (h : t.Normal) :
    (t.canonicalize var).Normal ↔ (t.canonicalize var).frontFolds = false := by
  unfold canonicalize
  split
  · next hadditive =>
    have hzero : t.isValue 0 = false := isValue_of_isAdditive 0 hadditive
    have hterms : ∀ s ∈ t.summands.mergeSort (mayPrecede var),
        s.term.Normal ∧ s.term.isValue 0 = false := by
      intro s hs
      exact normal_of_mem_summandsOf h hzero false (List.mem_mergeSort.1 hs)
    generalize t.summands.mergeSort (mayPrecede var) = sorted at hterms
    cases sorted with
    | nil => exact ⟨fun _ => rfl, fun _ => trivial⟩
    | cons s rest =>
      obtain ⟨hs, hszero⟩ := hterms s List.mem_cons_self
      have hfirst := frontNormal_ofFirst hs hszero
      exact (hfirst.foldl_append fun u hu => hterms u (List.mem_cons_of_mem s hu)).2
  · exact ⟨frontFolds_of_normal, fun _ => h⟩

end Term

namespace Derivation

variable {α : Type} [Scalar α] {options : Options}

theorem normal_next_iff [SymmetricScalar α] (options : Options) (var : String) (t : Term α) :
    (next options var t).Normal ↔ (next options var t).frontFolds = false := by
  have hnormal : (t.derivative var).simplify.Normal := Simplified.normal_ofTerm _
  unfold next
  split
  · exact Term.normal_canonicalize_iff var hnormal
  · exact ⟨Term.frontFolds_of_normal, fun _ => hnormal⟩

/-- Every derivative that is taken comes from some term. -/
theorem exists_next_of_mem_take {var : String} {t s : Term α} {order count : Nat}
    {orders : List (Term α)} (h : take options var t order count = .ok orders) (hs : s ∈ orders) :
    ∃ u, s = next options var u := by
  induction count generalizing t order orders with
  | zero =>
    cases h
    cases hs
  | succ count ih =>
    obtain ⟨-, -, rest, hrest, rfl⟩ := take_succ_eq_ok.1 h
    rcases List.mem_cons.1 hs with rfl | hs
    · exact ⟨t, rfl⟩
    · exact ih hrest hs

variable [Numeral α]

/-- A derivative that is computed is left alone by simplification, if and only if its sum does not
begin with constants that can be worked out. Without canonical order, it never does. -/
theorem compute_simplified_iff [SymmetricScalar α] {request : Request} {d : Derivation α}
    (h : compute request options = .ok d) :
    ∀ s ∈ d.orders, (s.simplify = s ↔ s.frontFolds = false) ∧
      (options.canonicalOrder = false → s.simplify = s) := by
  obtain ⟨var, order, t, orders, -, -, horders, rfl⟩ := compute_eq_ok.1 h
  intro s hs
  obtain ⟨u, rfl⟩ := exists_next_of_mem_take horders hs
  rw [Simplified.simplify_eq_self_iff]
  refine ⟨normal_next_iff options var u, ?_⟩
  intro hunordered
  unfold next
  rw [hunordered]
  exact Simplified.normal_ofTerm _

/-- In `cos(x) + 1`, the only constant does not stand next to another one. -/
theorem compute_simplified_iff_sine :
    ∃ d : Derivation ℤ, compute ⟨"sin(x) + x", "x", 1⟩ {} = .ok d ∧
      d.orders = [.sum (.call .cos (.symbol "x")) (.const 1)] ∧
      ∀ s ∈ d.orders, s.simplify = s := by
  have hvalid : Request.validate ⟨"sin(x) + x", "x", 1⟩ {} = .ok ("x", 1) := by decide +kernel
  have horders : take {} "x" (.sum (.call .sin (.symbol "x")) (.symbol "x") : Term ℤ) 1 1 =
      .ok [.sum (.call .cos (.symbol "x")) (.const 1)] := by cbv
  have hread : readTerm {} "sin(x) + x" =
      .ok (.sum (.call .sin (.symbol "x")) (.symbol "x") : Term ℤ) := by cbv
  have hcompute := compute_eq_ok.2 ⟨_, _, _, _, hvalid, hread, horders, rfl⟩
  refine ⟨_, hcompute, rfl, ?_⟩
  intro s hs
  have hiff := (compute_simplified_iff hcompute s hs).1
  cases List.mem_singleton.1 hs
  exact hiff.2 rfl

/-- Canonical order brings the constants of `1 + (2 + cos(x))` together as `1 + 2 + cos(x)`, and
nothing works them out. -/
theorem computed_not_simplified :
    ∃ d : Derivation ℤ, compute ⟨"x + (2x + sin(x))", "x", 1⟩ {} = .ok d ∧
      ∃ s ∈ d.orders, s.simplify ≠ s := by
  have hvalid : Request.validate ⟨"x + (2x + sin(x))", "x", 1⟩ {} = .ok ("x", 1) := by
    decide +kernel
  have horders : take {} "x" (.sum (.symbol "x")
      (.sum (.product (.const 2) (.symbol "x")) (.call .sin (.symbol "x"))) : Term ℤ) 1 1 =
      .ok [.sum (.sum (.const 1) (.const 2)) (.call .cos (.symbol "x"))] := by cbv
  have hread : readTerm {} "x + (2x + sin(x))" =
      .ok (.sum (.symbol "x") (.sum (.product (.const 2) (.symbol "x")) (.call .sin (.symbol "x"))) :
        Term ℤ) := by cbv
  refine ⟨_, compute_eq_ok.2 ⟨_, _, _, _, hvalid, hread, horders, rfl⟩, _, List.mem_cons_self, ?_⟩
  intro h
  cases h

end Derivation

end Fluxion
