import Fluxion.Proofs.Term.Opposite

/-!
# Simplification stops, and no term grows

A node that is built with the identities has at most as many nodes as the plain one. For sums,
quotients and powers this is seen from what a single identity makes of the operands. A product goes
on with what is left of an operand without its coefficient, and with what comes of that; so the bound
of the inner product is needed for the outer one.

The product is defined here by structural recursion. As a function that calls itself it is less
plainly finite: with a constant on its right it starts over with its operands exchanged, and with a
coefficient on either side it works on the outcome of another call. Neither makes the operands
smaller. What it comes to is the same, and no more of its calls are open at once than its operands
have nodes.
-/

namespace Fluxion

namespace Simplified

variable {α : Type} [Scalar α]

/-! ## Nodes of what is built -/

theorem size_foldOr {v : α} {otherwise : Simplified α} {n : Nat} (hn : 0 < n)
    (h : otherwise.term.size ≤ n) : (foldOr v otherwise).term.size ≤ n := by
  unfold foldOr
  split
  · exact hn
  · exact h

theorem size_reciprocal {t d : Term α} (h : reciprocal? t = some d) : d.size < t.size := by
  obtain ⟨l, rfl, -⟩ := reciprocal?_eq_some h
  simp only [Term.size]
  omega

theorem size_addNode (l r : Term α) : (addNode l r).term.size ≤ 1 + l.size + r.size := by
  unfold addNode
  split
  · show l.size ≤ 1 + l.size + r.size
    omega
  · split
    · show r.size ≤ 1 + l.size + r.size
      omega
    · exact Nat.le_refl _

theorem size_add (l r : Term α) : (add l r).term.size ≤ 1 + l.size + r.size := by
  unfold add
  split
  · exact size_foldOr (by omega) (size_addNode _ _)
  · exact size_addNode _ _

theorem size_divNode (l r : Term α) : (divNode l r).term.size ≤ 1 + l.size + r.size := by
  have hconst : 1 ≤ 1 + l.size + r.size := by omega
  unfold divNode
  split
  · show l.size ≤ 1 + l.size + r.size
    omega
  · split
    · exact hconst
    · split
      · exact hconst
      · exact Nat.le_refl _

theorem size_div (l r : Term α) : (div l r).term.size ≤ 1 + l.size + r.size := by
  unfold div
  split
  · split
    · exact size_divNode _ _
    · exact size_foldOr (by omega) (size_divNode _ _)
  · exact size_divNode _ _

theorem size_pow (b : Term α) (e : α) : (pow b e).term.size ≤ 1 + b.size := by
  have hpos : 0 < 1 + b.size := by omega
  unfold pow
  split
  · exact hpos
  · split
    · show b.size ≤ 1 + b.size
      omega
    · split
      · exact size_foldOr hpos (Nat.le_refl _)
      · exact Nat.le_refl _

theorem size_scaleBy {c : α} {t : Term α} {otherwise : Simplified α} {n : Nat} (ht : t.size ≤ n)
    (h : otherwise.term.size ≤ n) : (scaleBy c t otherwise).term.size ≤ n := by
  unfold scaleBy
  split
  · exact Nat.le_trans t.size_pos ht
  · split
    · exact ht
    · exact h

/-- A constant is one node, and the product is another. -/
theorem size_scale (c : α) (t : Term α) : (scale c t).term.size ≤ 2 + t.size := by
  fun_induction scale c t with
  | case1 c v => exact size_foldOr (by omega) (Nat.le_refl _)
  | case2 c d t ih =>
    apply size_scaleBy (by omega)
    split
    · show (scale (c * d) t).term.size ≤ 2 + (1 + 1 + t.size)
      omega
    · show 1 + 1 + (1 + 1 + t.size) ≤ 2 + (1 + 1 + t.size)
      omega
  | case3 c t _ _ =>
    apply size_scaleBy (by omega)
    split
    · next d hd =>
      have hdiv := size_div (.const c) d
      have hsize := size_reciprocal hd
      simp only [Term.size] at hdiv
      show (div (.const c) d).term.size ≤ 2 + t.size
      omega
    · show 1 + 1 + t.size ≤ 2 + t.size
      omega

theorem size_neg (t : Term α) : (neg t).term.size ≤ 2 + t.size := size_scale _ t

theorem size_scaleRight (l : Term α) (c : α) : (scaleRight l c).term.size ≤ 2 + l.size :=
  size_scaleBy (by omega) (size_scale c l)

theorem size_mulFactors (l r : Term α) : (mulFactors l r).term.size ≤ 1 + l.size + r.size := by
  unfold mulFactors
  split
  · next d hd =>
    have hdiv := size_div r d
    have hsize := size_reciprocal hd
    show (div r d).term.size ≤ 1 + l.size + r.size
    omega
  · split
    · next d hd =>
      have hdiv := size_div l d
      have hsize := size_reciprocal hd
      show (div l d).term.size ≤ 1 + l.size + r.size
      omega
    · split
      · show 1 + r.size + l.size ≤ 1 + l.size + r.size
        omega
      · exact Nat.le_refl _

theorem size_mulRight (l r : Term α) : (mulRight l r).term.size ≤ 1 + l.size + r.size := by
  fun_induction mulRight l r with
  | case1 c =>
    have hscale := size_scaleRight l c
    simp only [Term.size]
    omega
  | case2 c r ih =>
    -- the coefficient is put in front of a product that has no more nodes than its operands
    have hscale := size_scale c (mulRight l r).term
    show (scale c (mulRight l r).term).term.size ≤ 1 + l.size + (1 + 1 + r.size)
    omega
  | case3 r _ _ => exact size_mulFactors l r

theorem size_mul (l r : Term α) : (mul l r).term.size ≤ 1 + l.size + r.size := by
  fun_induction mul l r with
  | case1 c r =>
    have hscale := size_scale c r
    simp only [Term.size]
    omega
  | case2 c l d =>
    have hscale := size_scaleRight (.product (.const c) l) d
    simp only [Term.size] at hscale ⊢
    omega
  | case3 c l r _ ih =>
    have hscale := size_scale c (mul l r).term
    show (scale c (mul l r).term).term.size ≤ 1 + (1 + 1 + l.size) + r.size
    omega
  | case4 l r _ _ => exact size_mulRight l r

theorem size_subNode (l r : Term α) : (subNode l r).term.size ≤ 1 + l.size + r.size := by
  have hpos := l.size_pos
  unfold subNode
  split
  · show l.size ≤ 1 + l.size + r.size
    omega
  · split
    · have hneg := size_neg r
      show (neg r).term.size ≤ 1 + l.size + r.size
      omega
    · exact Nat.le_refl _

theorem size_sub (l r : Term α) : (sub l r).term.size ≤ 1 + l.size + r.size := by
  unfold sub
  split
  · exact size_foldOr (by omega) (size_subNode _ _)
  · exact size_subNode _ _

/-- A term has at most as many nodes after it is simplified. -/
theorem size_ofTerm (t : Term α) : (ofTerm t).term.size ≤ t.size := by
  induction t with
  | const _ | symbol _ => exact Nat.le_refl _
  | sum l r ihl ihr =>
    have hadd := size_add (ofTerm l).term (ofTerm r).term
    show (add (ofTerm l).term (ofTerm r).term).term.size ≤ 1 + l.size + r.size
    omega
  | difference l r ihl ihr =>
    have hsub := size_sub (ofTerm l).term (ofTerm r).term
    show (sub (ofTerm l).term (ofTerm r).term).term.size ≤ 1 + l.size + r.size
    omega
  | product l r ihl ihr =>
    have hmul := size_mul (ofTerm l).term (ofTerm r).term
    show (mul (ofTerm l).term (ofTerm r).term).term.size ≤ 1 + l.size + r.size
    omega
  | quotient l r ihl ihr =>
    have hdiv := size_div (ofTerm l).term (ofTerm r).term
    show (div (ofTerm l).term (ofTerm r).term).term.size ≤ 1 + l.size + r.size
    omega
  | power b e ih =>
    have hpow := size_pow (ofTerm b).term e
    show (pow (ofTerm b).term e).term.size ≤ 1 + b.size
    omega
  | call f a ih =>
    show 1 + (ofTerm a).term.size ≤ 1 + a.size
    omega

/-! ## Calls that are open at once -/

/-- The coefficient of a product and the other factor. -/
def coefficient? : Term α → Option (α × Term α)
  | .product (.const c) rest => some (c, rest)
  | _ => none

/-- Puts a coefficient in front of a product, when both are worked out. -/
def combine (product : Option (Simplified α)) (scaled : Term α → Option (Simplified α)) :
    Option (Simplified α) :=
  product.bind fun s => (scaled s.term).map fun t =>
    (s.andThen fun _ => t).after .combineCoefficients

section

variable (call : Term α → Term α → Option (Simplified α))

/-- `c * t` for a constant that is neither zero nor one, where `call` works out further products: two
coefficients become one. -/
def scaleStep (c : α) (t : Term α) : Option (Simplified α) :=
  match coefficient? t with
  | some (d, rest) =>
    if Scalar.isFinite (c * d) then
      (call (.const (c * d)) rest).map (after .combineCoefficients)
    else
      some (same (.product (.const c) t))
  | none =>
    match reciprocal? t with
    | some denominator => some ((div (.const c) denominator).after .reciprocalProduct)
    | none => some (same (.product (.const c) t))

/-- `l * r` for factors that are no constants, where `call` works out further products: a product with
a coefficient is worked out without it before the coefficient is put in front. -/
def factorStep (l r : Term α) : Option (Simplified α) :=
  match coefficient? l with
  | some (c, rest) => combine (call rest r) (call (.const c))
  | none =>
    match coefficient? r with
    | some (c, rest) => combine (call l rest) (call (.const c))
    | none => some (mulFactors l r)

/-- `l * r`, where `call` works out further products: a constant on the right changes places with the
other factor. -/
def mulStep (l r : Term α) : Option (Simplified α) :=
  match l.value?, r.value? with
  | some v, some w => some (foldOr (v * w) (same (.product l r)))
  | leftValue?, _ =>
    if l.isValue 0 || r.isValue 0 then
      some (byStep .multiplyZero (.const 0))
    else if l.isValue 1 then
      some (byStep .multiplyOne r)
    else if r.isValue 1 then
      some (byStep .multiplyOne l)
    else if r.isConst then
      (call r l).map (after .moveCoefficient)
    else
      match leftValue? with
      | some c => scaleStep call c r
      | none => factorStep call l r

end

/-- `l * r`, if it takes no more than `n` calls of the product inside one another. -/
def mulWithin : (n : Nat) → Term α → Term α → Option (Simplified α)
  | 0, _, _ => none
  | n + 1, l, r => mulStep (mulWithin n) l r

/-- `-t`, if it takes no more than `n` calls of the product inside one another. -/
def negWithin (n : Nat) (t : Term α) : Option (Simplified α) := mulWithin n (.const (-1)) t

/-- `l - r` for operands that are not both constants, or constants that cannot be worked out. -/
def subNodeWithin (n : Nat) (l r : Term α) : Option (Simplified α) :=
  if r.isValue 0 then
    some (byStep .subtractZero l)
  else if l.isValue 0 then
    (negWithin n r).map (after .subtractFromZero)
  else
    some (same (.difference l r))

/-- `l - r`, if it takes no more than `n` calls of the product inside one another. -/
def subWithin (n : Nat) (l r : Term α) : Option (Simplified α) :=
  match l.value?, r.value? with
  | some v, some w =>
    if Scalar.isFinite (v - w) then
      some (byStep .foldConstants (.const (v - w)))
    else
      subNodeWithin n l r
  | _, _ => subNodeWithin n l r

/-- Builds a node of two operands, when both are simplified. -/
def build (left right : Option (Simplified α)) (node : Term α → Term α → Option (Simplified α)) :
    Option (Simplified α) :=
  left.bind fun l => right.bind fun r =>
    (node l.term r.term).map fun t => l.andBoth r fun _ _ => t

/-- A term, simplified, if that takes no more than `n` calls inside one another. -/
def ofTermWithin : (n : Nat) → Term α → Option (Simplified α)
  | 0, _ => none
  | _ + 1, .const v => some (same (.const v))
  | _ + 1, .symbol name => some (same (.symbol name))
  | n + 1, .sum l r => build (ofTermWithin n l) (ofTermWithin n r) fun l r => some (add l r)
  | n + 1, .difference l r => build (ofTermWithin n l) (ofTermWithin n r) (subWithin n)
  | n + 1, .product l r => build (ofTermWithin n l) (ofTermWithin n r) (mulWithin n)
  | n + 1, .quotient l r => build (ofTermWithin n l) (ofTermWithin n r) fun l r => some (div l r)
  | n + 1, .power b e => (ofTermWithin n b).map fun b => b.andThen fun b => pow b e
  | n + 1, .call f a => (ofTermWithin n a).map fun a => a.andThen fun a => same (.call f a)

open Term (isValue_of_not_isConst isConst_of_isFactor)

omit [Scalar α] in
theorem value?_of_not_isConst {t : Term α} (h : t.isConst = false) : t.value? = none := by
  cases t with
  | const v => cases h
  | symbol _ | sum _ _ | difference _ _ | product _ _ | quotient _ _ | power _ _ | call _ _ => rfl

omit [Scalar α] in
theorem coefficient?_multiple (c : α) (t : Term α) :
    coefficient? (.product (.const c) t) = some (c, t) := rfl

omit [Scalar α] in
theorem coefficient?_of_isFactor {t : Term α} (h : t.isFactor = true) : coefficient? t = none := by
  unfold coefficient?
  split
  · cases h
  · rfl

omit [Scalar α] in
theorem exists_eq_add_one {t : Term α} {n : Nat} (h : t.size ≤ n) : ∃ m, n = m + 1 :=
  Nat.exists_eq_add_one.2 (Nat.lt_of_lt_of_le t.size_pos h)

section

variable {call : Term α → Term α → Option (Simplified α)}

/-- A constant times a term that is none. -/
theorem mulStep_const (c : α) {t : Term α} {s : Simplified α} (ht : t.isConst = false)
    (h : scaleStep call c t = some s) : mulStep call (.const c) t = some (scaleBy c t s) := by
  have hvalue (v : α) : (Term.const c).isValue v = (c == v) := rfl
  have hconst : (Term.const c).value? = some c := rfl
  unfold scaleBy
  by_cases hzero : (c == 0) = true
  · simp [mulStep, hconst, value?_of_not_isConst ht, hvalue, hzero]
  · by_cases hone : (c == 1) = true
    · simp [mulStep, hconst, value?_of_not_isConst ht, hvalue, isValue_of_not_isConst _ ht, hzero,
        hone]
    · simp [mulStep, hconst, value?_of_not_isConst ht, hvalue, isValue_of_not_isConst _ ht, ht,
        hzero, hone, h]

/-- A term that is no constant times one: they change places. -/
theorem mulStep_constRight (c : α) {t : Term α} {s : Simplified α} (ht : t.isConst = false)
    (h : call (.const c) t = some s) :
    mulStep call t (.const c) = some (scaleBy c t (s.after .moveCoefficient)) := by
  have hvalue (v : α) : (Term.const c).isValue v = (c == v) := rfl
  unfold scaleBy
  by_cases hzero : (c == 0) = true
  · simp [mulStep, value?_of_not_isConst ht, hvalue, hzero]
  · by_cases hone : (c == 1) = true
    · simp [mulStep, value?_of_not_isConst ht, hvalue, isValue_of_not_isConst _ ht, hzero, hone]
    · simp [mulStep, value?_of_not_isConst ht, hvalue, isValue_of_not_isConst _ ht, Term.isConst,
        hzero, hone, h]

/-- A product of two terms that are no constants. -/
theorem mulStep_of_not_isConst {l r : Term α} (hl : l.isConst = false) (hr : r.isConst = false) :
    mulStep call l r = factorStep call l r := by
  simp [mulStep, value?_of_not_isConst hl, isValue_of_not_isConst _ hl, isValue_of_not_isConst _ hr,
    hr]

end

/-- A product with a constant takes a call for each coefficient in the other factor. -/
theorem mulWithin_const (c : α) (t : Term α) {n : Nat} (h : t.size ≤ n) :
    mulWithin n (.const c) t = some (scale c t) := by
  obtain ⟨n, rfl⟩ := exists_eq_add_one h
  fun_induction scale c t generalizing n with
  | case1 c v => rfl
  | case2 c d t ih =>
    simp only [Term.size] at h
    obtain ⟨n, rfl⟩ := exists_eq_add_one (t := t) (n := n) (by omega)
    apply mulStep_const c rfl
    simp only [scaleStep, coefficient?_multiple, ih n (by omega)]
    split <;> rfl
  | case3 c t hconst hmultiple =>
    have hfactor := isFactor_eq_true hconst hmultiple
    apply mulStep_const c (isConst_of_isFactor hfactor)
    simp only [scaleStep, coefficient?_of_isFactor hfactor]
    cases reciprocal? t <;> rfl

theorem mulWithin_scaleRight {l : Term α} (c : α) (hl : l.isConst = false) {n : Nat}
    (h : l.size ≤ n) : mulWithin (n + 1) l (.const c) = some (scaleRight l c) :=
  mulStep_constRight c hl (mulWithin_const c l h)

/-- A coefficient is put in front of a product that has been worked out. -/
theorem combine_mulWithin (c : α) (s : Simplified α) {n : Nat} (h : s.term.size ≤ n) :
    combine (some s) (mulWithin n (.const c)) =
      some ((s.andThen (scale c)).after .combineCoefficients) := by
  rw [combine, Option.bind_some, mulWithin_const c s.term h]
  rfl

theorem mulWithin_mulRight {l : Term α} (hl : l.isFactor = true) (r : Term α) {n : Nat}
    (h : l.size + r.size ≤ n) : mulWithin n l r = some (mulRight l r) := by
  have hconst := isConst_of_isFactor hl
  obtain ⟨n, rfl⟩ := exists_eq_add_one (t := l) (n := n) (by omega)
  fun_induction mulRight l r generalizing n with
  | case1 c =>
    simp only [Term.size] at h
    exact mulWithin_scaleRight c hconst (by omega)
  | case2 c r ih =>
    simp only [Term.size] at h
    obtain ⟨n, rfl⟩ := exists_eq_add_one (t := r) (n := n) (by omega)
    have hsize := size_mulRight l r
    rw [mulWithin, mulStep_of_not_isConst hconst rfl, factorStep, coefficient?_of_isFactor hl,
      coefficient?_multiple]
    dsimp only
    rw [ih n (by omega)]
    exact combine_mulWithin c _ (by omega)
  | case3 r hright hmultiple =>
    have hfactor := isFactor_eq_true hright hmultiple
    rw [mulWithin, mulStep_of_not_isConst hconst (isConst_of_isFactor hfactor), factorStep,
      coefficient?_of_isFactor hl, coefficient?_of_isFactor hfactor]

/-- No more calls of a product are open at once than its factors have nodes. When a coefficient is put
in front of a product that has been worked out, the operands have as many nodes as before at most, and
the constant on the left makes the difference. -/
theorem mulWithin_eq (l r : Term α) {n : Nat} (h : l.size + r.size ≤ n) :
    mulWithin n l r = some (mul l r) := by
  fun_induction mul l r generalizing n with
  | case1 c r => exact mulWithin_const c r (by omega)
  | case2 c l d =>
    obtain ⟨n, rfl⟩ := exists_eq_add_one (t := l) (n := n) (by simp only [Term.size] at h; omega)
    exact mulWithin_scaleRight d rfl (Nat.le_of_succ_le_succ h)
  | case3 c l r hright ih =>
    simp only [Term.size] at h
    obtain ⟨n, rfl⟩ := exists_eq_add_one (t := l) (n := n) (by omega)
    have hsize := size_mul l r
    rw [mulWithin, mulStep_of_not_isConst rfl (isConst_eq_false hright), factorStep, coefficient?_multiple]
    dsimp only
    rw [ih (by omega)]
    exact combine_mulWithin c _ (by omega)
  | case4 l r hleft hmultiple => exact mulWithin_mulRight (isFactor_eq_true hleft hmultiple) r h

theorem negWithin_eq (t : Term α) {n : Nat} (h : t.size ≤ n) : negWithin n t = some (neg t) :=
  mulWithin_const (-1) t h

theorem subNodeWithin_eq (l r : Term α) {n : Nat} (h : r.size ≤ n) :
    subNodeWithin n l r = some (subNode l r) := by
  unfold subNodeWithin subNode
  split
  · rfl
  · split
    · rw [negWithin_eq r h]
      rfl
    · rfl

theorem subWithin_eq (l r : Term α) {n : Nat} (h : r.size ≤ n) :
    subWithin n l r = some (sub l r) := by
  unfold subWithin
  rw [subNodeWithin_eq l r h]
  cases l with
  | const v =>
    cases r with
    | const w =>
      show (if Scalar.isFinite (v - w) = true then _ else _) =
        some (foldOr (v - w) (subNode (.const v) (.const w)))
      unfold foldOr
      split <;> rfl
    | symbol _ | sum _ _ | difference _ _ | product _ _ | quotient _ _ | power _ _ | call _ _ => rfl
  | symbol _ | sum _ _ | difference _ _ | product _ _ | quotient _ _ | power _ _ | call _ _ => rfl

omit [Scalar α] in
theorem build_some {l r : Simplified α} {node : Term α → Term α → Option (Simplified α)}
    {f : Term α → Term α → Simplified α} (h : node l.term r.term = some (f l.term r.term)) :
    build (some l) (some r) node = some (l.andBoth r f) := by
  rw [build, Option.bind_some, Option.bind_some, h]
  rfl

/-- No more calls are open at once than the term has nodes, when it is simplified. -/
theorem ofTermWithin_eq (t : Term α) {n : Nat} (h : t.size ≤ n) :
    ofTermWithin n t = some (ofTerm t) := by
  induction t generalizing n with
  | const _ | symbol _ =>
    obtain ⟨n, rfl⟩ := exists_eq_add_one h
    rfl
  | sum l r ihl ihr =>
    obtain ⟨n, rfl⟩ := exists_eq_add_one h
    simp only [Term.size] at h
    rw [ofTermWithin, ihl (by omega), ihr (by omega)]
    exact build_some rfl
  | difference l r ihl ihr =>
    obtain ⟨n, rfl⟩ := exists_eq_add_one h
    simp only [Term.size] at h
    have hsize := size_ofTerm r
    rw [ofTermWithin, ihl (by omega), ihr (by omega)]
    exact build_some (subWithin_eq _ _ (by omega))
  | product l r ihl ihr =>
    obtain ⟨n, rfl⟩ := exists_eq_add_one h
    simp only [Term.size] at h
    have hleft := size_ofTerm l
    have hright := size_ofTerm r
    rw [ofTermWithin, ihl (by omega), ihr (by omega)]
    exact build_some (mulWithin_eq _ _ (by omega))
  | quotient l r ihl ihr =>
    obtain ⟨n, rfl⟩ := exists_eq_add_one h
    simp only [Term.size] at h
    rw [ofTermWithin, ihl (by omega), ihr (by omega)]
    exact build_some rfl
  | power b e ih =>
    obtain ⟨n, rfl⟩ := exists_eq_add_one h
    simp only [Term.size] at h
    rw [ofTermWithin, ih (by omega)]
    rfl
  | call f a ih =>
    obtain ⟨n, rfl⟩ := exists_eq_add_one h
    simp only [Term.size] at h
    rw [ofTermWithin, ih (by omega)]
    rfl

/-- Simplification stops, for all terms, simplified or not, and all numbers in them: with as many calls
inside one another as there are nodes, or more, every product, opposite, difference and simplified
term is worked out, and is what the structural definitions make it. What is built has at most one
node beside those of its operands, two for an opposite, whose other operand is minus one; and a term
has at most as many nodes after it is simplified. -/
theorem simplification_stops_small :
    ((∀ (l r : Term α) (n : Nat), mulWithin (l.size + r.size + n) l r = some (mul l r)) ∧
      (∀ (t : Term α) (n : Nat), negWithin (t.size + n) t = some (neg t)) ∧
      (∀ (l r : Term α) (n : Nat), subWithin (r.size + n) l r = some (sub l r)) ∧
      (∀ (t : Term α) (n : Nat), ofTermWithin (t.size + n) t = some (ofTerm t))) ∧
    (∀ l r : Term α, (add l r).term.size ≤ 1 + l.size + r.size ∧
      (sub l r).term.size ≤ 1 + l.size + r.size ∧ (mul l r).term.size ≤ 1 + l.size + r.size ∧
      (div l r).term.size ≤ 1 + l.size + r.size) ∧
    (∀ t : Term α, (neg t).term.size ≤ 2 + t.size) ∧
    (∀ (b : Term α) (e : α), (pow b e).term.size ≤ 1 + b.size) ∧
    ∀ t : Term α, t.simplify.size ≤ t.size := by
  refine ⟨⟨?_, ?_, ?_, ?_⟩, ?_, size_neg, size_pow, size_ofTerm⟩
  · intro l r n
    exact mulWithin_eq l r (Nat.le_add_right _ n)
  · intro t n
    exact negWithin_eq t (Nat.le_add_right _ n)
  · intro l r n
    exact subWithin_eq l r (Nat.le_add_right _ n)
  · intro t n
    exact ofTermWithin_eq t (Nat.le_add_right _ n)
  · intro l r
    exact ⟨size_add l r, size_sub l r, size_mul l r, size_div l r⟩

end Simplified

end Fluxion
