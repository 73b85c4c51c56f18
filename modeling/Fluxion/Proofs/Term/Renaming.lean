import Fluxion.Proofs.Term.Opposite
import Fluxion.Scalar.Binary64
import Fluxion.Term.Derivative

/-!
# Names of symbols

Symbols are only compared with each other and with the variable. So a renaming that keeps different
symbols apart makes no difference to what is done with a term: every way of building a node commutes
with it, and takes the same steps.
-/

namespace Fluxion

namespace Term

variable {α : Type} (r : String → String)

/-- The term with other names for its symbols. -/
def rename : Term α → Term α
  | const v => const v
  | symbol name => symbol (r name)
  | sum left right => sum left.rename right.rename
  | difference left right => difference left.rename right.rename
  | product left right => product left.rename right.rename
  | quotient left right => quotient left.rename right.rename
  | power b e => power b.rename e
  | call f a => call f a.rename

end Term

/-- The same simplification of a term with other names. -/
def Simplified.rename {α : Type} (r : String → String) (s : Simplified α) : Simplified α :=
  ⟨s.term.rename r, s.steps⟩

/-- The summand with other names for its symbols. -/
def Summand.rename {α : Type} (r : String → String) (s : Summand α) : Summand α :=
  ⟨s.subtracted, s.term.rename r⟩

namespace Term

variable {α : Type} (r : String → String)

@[simp] theorem isConst_rename (t : Term α) : (t.rename r).isConst = t.isConst := by
  cases t <;> rfl

@[simp] theorem isFactor_rename (t : Term α) : (t.rename r).isFactor = t.isFactor := by
  cases t with
  | product left right => cases left <;> rfl
  | const _ | symbol _ | sum _ _ | difference _ _ | quotient _ _ | power _ _ | call _ _ => rfl

@[simp] theorem isAdditive_rename (t : Term α) : (t.rename r).isAdditive = t.isAdditive := by
  cases t <;> rfl

@[simp] theorem isValue_rename [BEq α] (v : α) (t : Term α) :
    (t.rename r).isValue v = t.isValue v := by
  cases t <;> rfl

variable {r}

/-- Names that are kept apart are equal after a renaming if and only if they were before. -/
theorem beq_name (hr : Function.Injective r) (a b : String) : (r a == r b) = (a == b) := by
  by_cases hab : a = b
  · simp [hab]
  · have hne : r a ≠ r b := fun h => hab (hr h)
    simp [hab, hne]

theorem isSymbol_rename (hr : Function.Injective r) (name : String) (t : Term α) :
    (t.rename r).isSymbol (r name) = t.isSymbol name := by
  cases t with
  | symbol s => exact beq_name hr s name
  | const _ | sum _ _ | difference _ _ | product _ _ | quotient _ _ | power _ _ | call _ _ => rfl

theorem beq_rename [BEq α] (hr : Function.Injective r) (s t : Term α) :
    (s.rename r == t.rename r) = (s == t) := by
  show beq (s.rename r) (t.rename r) = beq s t
  induction s generalizing t with
  | const v => cases t <;> rfl
  | symbol a =>
    cases t with
    | symbol b => exact beq_name hr a b
    | _ => rfl
  | sum left right ihl ihr | difference left right ihl ihr | product left right ihl ihr
  | quotient left right ihl ihr =>
    cases t <;> simp [rename, beq, ihl, ihr]
  | power b e ih | call f a ih => cases t <;> simp [rename, beq, ih]

end Term

namespace Simplified

variable {α : Type} [Scalar α] {r : String → String}

/-! ## Ways of building a node -/

section

variable (r)

omit [Scalar α] in
@[simp] theorem rename_same (t : Term α) : (same t).rename r = same (t.rename r) := rfl

omit [Scalar α] in
@[simp] theorem rename_byStep (step : Identity) (t : Term α) :
    (byStep step t).rename r = byStep step (t.rename r) := rfl

omit [Scalar α] in
@[simp] theorem rename_after (step : Identity) (s : Simplified α) :
    (s.after step).rename r = (s.rename r).after step := rfl

omit [Scalar α] in
@[simp] theorem rename_andThen {f : Term α → Simplified α} (s : Simplified α)
    (hf : ∀ t, f (t.rename r) = (f t).rename r) :
    (s.andThen f).rename r = (s.rename r).andThen f := by
  simp [andThen, Simplified.rename, hf]

omit [Scalar α] in
theorem rename_andBoth {f : Term α → Term α → Simplified α} (s t : Simplified α)
    (hf : ∀ left right, f (left.rename r) (right.rename r) = (f left right).rename r) :
    (s.andBoth t f).rename r = (s.rename r).andBoth (t.rename r) f := by
  simp [andBoth, Simplified.rename, hf]

theorem foldOr_rename (v : α) {s s' : Simplified α} (h : s' = s.rename r) :
    foldOr v s' = (foldOr v s).rename r := by
  subst h
  unfold foldOr
  split <;> rfl

theorem scaleBy_rename (c : α) (t : Term α) {s s' : Simplified α} (h : s' = s.rename r) :
    scaleBy c (t.rename r) s' = (scaleBy c t s).rename r := by
  subst h
  unfold scaleBy
  split
  · rfl
  · split <;> rfl

omit [Scalar α] in
@[simp] theorem factorRank_rename (t : Term α) : factorRank (t.rename r) = factorRank t := by
  cases t with
  | power b e => cases b <;> rfl
  | const _ | symbol _ | sum _ _ | difference _ _ | product _ _ | quotient _ _ | call _ _ => rfl

omit [Scalar α] in
@[simp] theorem outOfOrder_rename (left right : Term α) :
    outOfOrder (left.rename r) (right.rename r) = outOfOrder left right := by
  simp [outOfOrder]

theorem reciprocal?_rename (t : Term α) :
    reciprocal? (t.rename r) = (reciprocal? t).map (Term.rename r) := by
  cases t with
  | quotient left right =>
    simp only [Term.rename, reciprocal?, Term.isValue_rename]
    split <;> rfl
  | const _ | symbol _ | sum _ _ | difference _ _ | product _ _ | power _ _ | call _ _ => rfl

theorem addNode_rename (left right : Term α) :
    addNode (left.rename r) (right.rename r) = (addNode left right).rename r := by
  simp only [addNode, Term.isValue_rename]
  split
  · rfl
  · split <;> rfl

theorem add_rename (left right : Term α) :
    add (left.rename r) (right.rename r) = (add left right).rename r := by
  have hnode := addNode_rename r left right
  cases left with
  | const v =>
    cases right with
    | const w => exact foldOr_rename r (v + w) hnode
    | _ => exact hnode
  | _ => exact hnode

theorem pow_rename (b : Term α) (e : α) : pow (b.rename r) e = (pow b e).rename r := by
  unfold pow
  split
  · rfl
  · split
    · rfl
    · cases b with
      | const v => exact foldOr_rename r (Scalar.pow v e) rfl
      | _ => rfl

end

/-! ## Products and quotients -/

variable (hr : Function.Injective r)
include hr

/-- Two operands of a quotient are equal after a renaming if and only if they were before. -/
theorem divNode_rename (left right : Term α) :
    divNode (left.rename r) (right.rename r) = (divNode left right).rename r := by
  simp only [divNode, Term.isValue_rename, Term.beq_rename hr]
  split
  · rfl
  · split
    · rfl
    · split <;> rfl

theorem div_rename (left right : Term α) :
    div (left.rename r) (right.rename r) = (div left right).rename r := by
  have hnode := divNode_rename hr left right
  cases left with
  | const v =>
    cases right with
    | const w =>
      unfold div
      simp only [Term.rename]
      split
      · exact hnode
      · exact foldOr_rename r (v / w) hnode
    | _ => exact hnode
  | _ => exact hnode

theorem mulFactors_rename (left right : Term α) :
    mulFactors (left.rename r) (right.rename r) = (mulFactors left right).rename r := by
  simp only [mulFactors, reciprocal?_rename, outOfOrder_rename]
  cases reciprocal? left with
  | some d => exact congrArg (after .reciprocalProduct) (div_rename hr right d)
  | none =>
    cases reciprocal? right with
    | some d => exact congrArg (after .reciprocalProduct) (div_rename hr left d)
    | none =>
      dsimp only [Option.map_none]
      split <;> rfl

theorem scale_rename (c : α) (t : Term α) : scale c (t.rename r) = (scale c t).rename r := by
  fun_induction scale c t with
  | case1 c v => exact foldOr_rename r (c * v) rfl
  | case2 c d t ih =>
    rw [Term.rename, Term.rename, scale]
    apply scaleBy_rename r c (.product (.const d) t)
    split
    · exact congrArg (after .combineCoefficients) ih
    · rfl
  | case3 c t hconst hmultiple =>
    have hfactor := isFactor_eq_true hconst hmultiple
    rw [scale_of_isFactor c (by simpa using hfactor), reciprocal?_rename]
    apply scaleBy_rename
    cases reciprocal? t with
    | some d => exact congrArg (after .reciprocalProduct) (div_rename hr (.const c) d)
    | none => rfl

theorem neg_rename (t : Term α) : neg (t.rename r) = (neg t).rename r := scale_rename hr (-1) t

theorem scaleRight_rename (left : Term α) (c : α) :
    scaleRight (left.rename r) c = (scaleRight left c).rename r :=
  scaleBy_rename r c left (congrArg (after .moveCoefficient) (scale_rename hr c left))

/-- A coefficient in front of a product that is worked out before. -/
theorem combine_rename (c : α) {s s' : Simplified α} (h : s' = s.rename r) :
    (s'.andThen (scale c)).after .combineCoefficients =
      ((s.andThen (scale c)).after .combineCoefficients).rename r := by
  rw [rename_after, rename_andThen r s (scale_rename hr c), h]

theorem mulRight_rename (left right : Term α) :
    mulRight (left.rename r) (right.rename r) = (mulRight left right).rename r := by
  fun_induction mulRight left right with
  | case1 c => exact scaleRight_rename hr left c
  | case2 c right ih => exact combine_rename hr c ih
  | case3 right hconst hmultiple =>
    have hfactor := isFactor_eq_true hconst hmultiple
    rw [mulRight_of_isFactor _ (by simpa using hfactor), mulFactors_rename hr]

theorem mul_rename (left right : Term α) :
    mul (left.rename r) (right.rename r) = (mul left right).rename r := by
  fun_induction mul left right with
  | case1 c right => exact scale_rename hr c right
  | case2 c left d => exact scaleRight_rename hr (.product (.const c) left) d
  | case3 c left right hright ih =>
    have hnot := isConst_eq_false hright
    rw [Term.rename, Term.rename, mul_multiple c _ (by simpa using hnot)]
    exact combine_rename hr c ih
  | case4 left right hconst hmultiple =>
    have hfactor := isFactor_eq_true hconst hmultiple
    rw [mul_of_isFactor _ (by simpa using hfactor), mulRight_rename hr]

theorem subNode_rename (left right : Term α) :
    subNode (left.rename r) (right.rename r) = (subNode left right).rename r := by
  simp only [subNode, Term.isValue_rename]
  split
  · rfl
  · split
    · exact congrArg (after .subtractFromZero) (neg_rename hr right)
    · rfl

theorem sub_rename (left right : Term α) :
    sub (left.rename r) (right.rename r) = (sub left right).rename r := by
  have hnode := subNode_rename hr left right
  cases left with
  | const v =>
    cases right with
    | const w => exact foldOr_rename r (v - w) hnode
    | _ => exact hnode
  | _ => exact hnode

/-- Simplification takes the same steps whatever the symbols are called. -/
theorem ofTerm_rename (t : Term α) : ofTerm (t.rename r) = (ofTerm t).rename r := by
  induction t with
  | const _ | symbol _ => rfl
  | sum left right ihl ihr =>
    rw [ofTerm, rename_andBoth r _ _ (add_rename r), ← ihl, ← ihr]
    rfl
  | difference left right ihl ihr =>
    rw [ofTerm, rename_andBoth r _ _ (sub_rename hr), ← ihl, ← ihr]
    rfl
  | product left right ihl ihr =>
    rw [ofTerm, rename_andBoth r _ _ (mul_rename hr), ← ihl, ← ihr]
    rfl
  | quotient left right ihl ihr =>
    rw [ofTerm, rename_andBoth r _ _ (div_rename hr), ← ihl, ← ihr]
    rfl
  | power b e ih =>
    rw [ofTerm, rename_andThen r _ fun b => pow_rename r b e, ← ih]
    rfl
  | call f a ih =>
    rw [ofTerm, rename_andThen r _ fun a => rfl, ← ih]
    rfl

end Simplified

namespace Term

variable {α : Type} [Scalar α] {r : String → String}

/-! ## Derivatives -/

theorem outerDerivative_rename (f : Func) (a : Term α) :
    outerDerivative f (a.rename r) = (outerDerivative f a).rename r := by
  cases f <;> rfl

section

variable (hr : Function.Injective r) (var : String)
include hr

theorem derivative_rename (t : Term α) :
    (t.rename r).derivative (r var) = (t.derivative var).rename r := by
  induction t with
  | const _ => rfl
  | symbol name =>
    simp only [rename, derivative, beq_name hr]
  | sum left right ihl ihr | difference left right ihl ihr | product left right ihl ihr
  | quotient left right ihl ihr =>
    simp only [rename, derivative, ihl, ihr]
  | power b e ih =>
    simp only [rename, derivative, isSymbol_rename hr, ih]
    split <;> rfl
  | call f a ih => simp only [rename, derivative, outerDerivative_rename, ih]

/-! ## Canonical order -/

theorem degree_rename (t : Term α) : (t.rename r).degree (r var) = t.degree var := by
  induction t with
  | symbol name => simp only [rename, degree, beq_name hr]
  | power b e => simp only [rename, degree, isSymbol_rename hr]
  | product left right _ ih =>
    cases left with
    | const c => exact ih
    | _ => rfl
  | const _ | sum _ _ | difference _ _ | quotient _ _ | call _ _ => rfl

omit [Scalar α] hr in
theorem summandsOf_rename (subtracted : Bool) (t : Term α) :
    (t.rename r).summandsOf subtracted = (t.summandsOf subtracted).map (Summand.rename r) := by
  induction t generalizing subtracted with
  | sum left right ihl ihr | difference left right ihl ihr =>
    simp only [rename, summandsOf, ihl, ihr, List.map_append]
  | const _ | symbol _ | product _ _ | quotient _ _ | power _ _ | call _ _ => rfl

omit [Scalar α] hr in
theorem append_rename (t : Term α) (s : Summand α) :
    (t.rename r).append (s.rename r) = (t.append s).rename r := by
  unfold append Summand.rename
  split <;> rfl

omit [Scalar α] hr in
theorem foldl_append_rename (t : Term α) (ss : List (Summand α)) :
    (ss.map (Summand.rename r)).foldl append (t.rename r) = (ss.foldl append t).rename r := by
  induction ss generalizing t with
  | nil => rfl
  | cons s ss ih => rw [List.map_cons, List.foldl_cons, append_rename, ih, List.foldl_cons]

theorem ofSummands_rename (ss : List (Summand α)) :
    ofSummands (ss.map (Summand.rename r)) = (ofSummands ss).rename r := by
  cases ss with
  | nil => rfl
  | cons s ss =>
    have hfirst : ofFirst (s.rename r) = (ofFirst s).rename r := by
      unfold ofFirst Summand.rename
      split
      · exact congrArg Simplified.term (Simplified.neg_rename hr s.term)
      · rfl
    rw [List.map_cons, ofSummands, hfirst, foldl_append_rename, ofSummands]

theorem canonicalize_rename (t : Term α) :
    (t.rename r).canonicalize (r var) = (t.canonicalize var).rename r := by
  unfold canonicalize
  rw [isAdditive_rename, summands, summandsOf_rename]
  split
  · have horder : ∀ s ∈ t.summands, ∀ s' ∈ t.summands,
        mayPrecede var s s' = mayPrecede (r var) (s.rename r) (s'.rename r) := by
      intro s _ s' _
      simp only [mayPrecede, Summand.rename, degree_rename hr]
    rw [← summands, ← List.map_mergeSort horder, ofSummands_rename hr]
  · rfl

theorem derive_rename (t : Term α) : (t.rename r).derive (r var) = (t.derive var).rename r := by
  have hsimplify : ((t.rename r).derivative (r var)).simplify =
      (t.derivative var).simplify.rename r := by
    rw [derivative_rename hr]
    exact congrArg Simplified.term (Simplified.ofTerm_rename hr _)
  rw [derive, hsimplify, canonicalize_rename hr, derive]

/-- The names of symbols carry no meaning: with other names, different ones for different symbols, the
derivatives of a term are the same but for the names, and so is the simplified term, which is reached
by the same steps. -/
theorem derivatives_rename (t : Term α) (n : Nat) :
    (t.rename r).derivatives (r var) n = (t.derivatives var n).map (rename r) ∧
      (Simplified.ofTerm (t.rename r)).term = (Simplified.ofTerm t).term.rename r ∧
      (Simplified.ofTerm (t.rename r)).steps = (Simplified.ofTerm t).steps := by
  refine ⟨?_, ?_, ?_⟩
  · induction n generalizing t with
    | zero => rfl
    | succ n ih => rw [derivatives, derive_rename hr, ih, derivatives, List.map_cons]
  · rw [Simplified.ofTerm_rename hr]
    rfl
  · rw [Simplified.ofTerm_rename hr]
    rfl

end

/-- In `cos(x) * x + y ^ 2`, `x` and `y` change places. -/
theorem derivatives_rename_swapped :
    let r := Equiv.swap "x" "y"
    let t : Term Float :=
      .sum (.product (.call .cos (.symbol "x")) (.symbol "x")) (.power (.symbol "y") 2)
    Function.Injective r ∧
    (((t.rename r).derivative "y").simplify == .sum (.product (.const (-1))
      (.product (.symbol "y") (.call .sin (.symbol "y")))) (.call .cos (.symbol "y"))) = true ∧
    (t.rename r).derivatives "y" 2 = (t.derivatives "x" 2).map (rename r) ∧
    (Simplified.ofTerm (t.rename r)).steps = [.reorderFactors] := by
  intro r t
  have hr : Function.Injective r := r.injective
  obtain ⟨hall, -, hsteps⟩ := derivatives_rename hr "x" t 2
  rw [Equiv.swap_apply_left] at hall
  have hreordered : (Simplified.ofTerm t).steps = [.reorderFactors] := by decide +kernel
  exact ⟨hr, by decide +kernel, hall, hsteps.trans hreordered⟩

end Term

end Fluxion
