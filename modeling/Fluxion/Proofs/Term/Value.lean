import Mathlib
import Fluxion.Term.Simplify

/-!
# Values of terms

What a term stands for. The numbers, the powers and the functions of terms are read in a field, as
an `Interpretation` says, and the symbols by an assignment. A term may have no value: it divides by
zero, has a number in it that is not a proper one, or applies a power or a function where it is not
defined. `Refines` compares two terms by their values: the one has the value of the other wherever
the other has a value.
-/

namespace Fluxion

/-- How the numbers, the powers and the functions of terms are read in `K`. -/
structure Interpretation (α K : Type) where
  number : α → K
  /-- A power, where it is defined. The exponent is the number that the term has. -/
  power : K → α → Option K
  /-- A function applied to an argument, where it is defined. -/
  apply : Func → K → Option K

/-- An interpretation that reads numbers as exact: whatever is worked out and is a proper number has
the value that it should have. The powers `u ^ 0` and `u ^ 1` are `1` and `u`. -/
structure Interpretation.Exact {α K : Type} [Scalar α] [Field K] (m : Interpretation α K) :
    Prop where
  isFinite_zero : Scalar.isFinite (0 : α) = true
  isFinite_one : Scalar.isFinite (1 : α) = true
  isFinite_negOne : Scalar.isFinite (-1 : α) = true
  number_zero : m.number 0 = 0
  number_one : m.number 1 = 1
  number_negOne : m.number (-1) = -1
  isFinite_congr {v w : α} : (v == w) = true → Scalar.isFinite v = Scalar.isFinite w
  number_congr {v w : α} : (v == w) = true → m.number v = m.number w
  power_congr {v w : α} (u : K) : (v == w) = true → m.power u v = m.power u w
  number_add {v w : α} : Scalar.isFinite v = true → Scalar.isFinite w = true →
    Scalar.isFinite (v + w) = true → m.number (v + w) = m.number v + m.number w
  number_sub {v w : α} : Scalar.isFinite v = true → Scalar.isFinite w = true →
    Scalar.isFinite (v - w) = true → m.number (v - w) = m.number v - m.number w
  number_mul {v w : α} : Scalar.isFinite v = true → Scalar.isFinite w = true →
    Scalar.isFinite (v * w) = true → m.number (v * w) = m.number v * m.number w
  number_div {v w : α} : Scalar.isFinite v = true → Scalar.isFinite w = true → m.number w ≠ 0 →
    Scalar.isFinite (v / w) = true → m.number (v / w) = m.number v / m.number w
  number_pow {v e : α} {y : K} : Scalar.isFinite v = true →
    Scalar.isFinite (Scalar.pow v e) = true → m.power (m.number v) e = some y →
    m.number (Scalar.pow v e) = y
  power_zero {e : α} (u : K) : (e == 0) = true → m.power u e = some 1
  power_one {e : α} (u : K) : (e == 1) = true → m.power u e = some u

namespace Term

/-- Whether every number of the term, exponents included, is a proper one. -/
def Proper {α : Type} [Scalar α] : Term α → Prop
  | const v => Scalar.isFinite v = true
  | symbol _ => True
  | sum l r | difference l r | product l r | quotient l r => l.Proper ∧ r.Proper
  | power b e => b.Proper ∧ Scalar.isFinite e = true
  | call _ a => a.Proper

variable {α K : Type} [Scalar α] [Field K]

open scoped Classical in
/-- The value of a term, if it has one. -/
noncomputable def eval? (m : Interpretation α K) (env : String → K) : Term α → Option K
  | const v => if Scalar.isFinite v then some (m.number v) else none
  | symbol name => some (env name)
  | sum l r => do return (← l.eval? m env) + (← r.eval? m env)
  | difference l r => do return (← l.eval? m env) - (← r.eval? m env)
  | product l r => do return (← l.eval? m env) * (← r.eval? m env)
  | quotient l r => do
    let x ← l.eval? m env
    let y ← r.eval? m env
    if y = 0 then none else some (x / y)
  | power b e => do m.power (← b.eval? m env) e
  | call f a => do m.apply f (← a.eval? m env)

variable {m : Interpretation α K} {env : String → K}

@[simp] theorem eval?_const {v : α} {x : K} :
    (const v).eval? m env = some x ↔ Scalar.isFinite v = true ∧ m.number v = x := by
  change (if Scalar.isFinite v then some (m.number v) else none) = some x ↔ _
  simp

@[simp] theorem eval?_symbol {name : String} {x : K} :
    (symbol name : Term α).eval? m env = some x ↔ env name = x := by
  change some (env name) = some x ↔ _
  simp

@[simp] theorem eval?_sum {l r : Term α} {x : K} :
    (sum l r).eval? m env = some x ↔
      ∃ y, l.eval? m env = some y ∧ ∃ z, r.eval? m env = some z ∧ y + z = x := by
  change ((l.eval? m env).bind fun y => (r.eval? m env).bind fun z => some (y + z)) = some x ↔ _
  simp [Option.bind_eq_some_iff]

@[simp] theorem eval?_difference {l r : Term α} {x : K} :
    (difference l r).eval? m env = some x ↔
      ∃ y, l.eval? m env = some y ∧ ∃ z, r.eval? m env = some z ∧ y - z = x := by
  change ((l.eval? m env).bind fun y => (r.eval? m env).bind fun z => some (y - z)) = some x ↔ _
  simp [Option.bind_eq_some_iff]

@[simp] theorem eval?_product {l r : Term α} {x : K} :
    (product l r).eval? m env = some x ↔
      ∃ y, l.eval? m env = some y ∧ ∃ z, r.eval? m env = some z ∧ y * z = x := by
  change ((l.eval? m env).bind fun y => (r.eval? m env).bind fun z => some (y * z)) = some x ↔ _
  simp [Option.bind_eq_some_iff]

open scoped Classical in
@[simp] theorem eval?_quotient {l r : Term α} {x : K} :
    (quotient l r).eval? m env = some x ↔
      ∃ y, l.eval? m env = some y ∧ ∃ z, r.eval? m env = some z ∧ z ≠ 0 ∧ y / z = x := by
  change ((l.eval? m env).bind fun y => (r.eval? m env).bind fun z =>
    if z = 0 then none else some (y / z)) = some x ↔ _
  simp [Option.bind_eq_some_iff]

@[simp] theorem eval?_power {b : Term α} {e : α} {x : K} :
    (power b e).eval? m env = some x ↔ ∃ y, b.eval? m env = some y ∧ m.power y e = some x := by
  change ((b.eval? m env).bind fun y => m.power y e) = some x ↔ _
  simp [Option.bind_eq_some_iff]

@[simp] theorem eval?_call {f : Func} {a : Term α} {x : K} :
    (call f a).eval? m env = some x ↔ ∃ y, a.eval? m env = some y ∧ m.apply f y = some x := by
  change ((a.eval? m env).bind fun y => m.apply f y) = some x ↔ _
  simp [Option.bind_eq_some_iff]

/-- Whatever value `t` has, `s` has it too. -/
def Refines (m : Interpretation α K) (env : String → K) (s t : Term α) : Prop :=
  ∀ x, t.eval? m env = some x → s.eval? m env = some x

namespace Refines

theorem refl (t : Term α) : Refines m env t t := fun _ h => h

theorem trans {s t u : Term α} (hst : Refines m env s t) (htu : Refines m env t u) :
    Refines m env s u := fun x h => hst x (htu x h)

/-! A node refines another one whose operands it refines. -/

theorem sum {l l' r r' : Term α} (hl : Refines m env l' l) (hr : Refines m env r' r) :
    Refines m env (.sum l' r') (.sum l r) := by
  intro x h
  obtain ⟨y, hy, z, hz, hx⟩ := eval?_sum.1 h
  exact eval?_sum.2 ⟨y, hl y hy, z, hr z hz, hx⟩

theorem difference {l l' r r' : Term α} (hl : Refines m env l' l) (hr : Refines m env r' r) :
    Refines m env (.difference l' r') (.difference l r) := by
  intro x h
  obtain ⟨y, hy, z, hz, hx⟩ := eval?_difference.1 h
  exact eval?_difference.2 ⟨y, hl y hy, z, hr z hz, hx⟩

theorem product {l l' r r' : Term α} (hl : Refines m env l' l) (hr : Refines m env r' r) :
    Refines m env (.product l' r') (.product l r) := by
  intro x h
  obtain ⟨y, hy, z, hz, hx⟩ := eval?_product.1 h
  exact eval?_product.2 ⟨y, hl y hy, z, hr z hz, hx⟩

theorem quotient {l l' r r' : Term α} (hl : Refines m env l' l) (hr : Refines m env r' r) :
    Refines m env (.quotient l' r') (.quotient l r) := by
  intro x h
  obtain ⟨y, hy, z, hz, hx⟩ := eval?_quotient.1 h
  exact eval?_quotient.2 ⟨y, hl y hy, z, hr z hz, hx⟩

theorem power {b b' : Term α} (e : α) (hb : Refines m env b' b) :
    Refines m env (.power b' e) (.power b e) := by
  intro x h
  obtain ⟨y, hy, hx⟩ := eval?_power.1 h
  exact eval?_power.2 ⟨y, hb y hy, hx⟩

theorem call {a a' : Term α} (f : Func) (ha : Refines m env a' a) :
    Refines m env (.call f a') (.call f a) := by
  intro x h
  obtain ⟨y, hy, hx⟩ := eval?_call.1 h
  exact eval?_call.2 ⟨y, ha y hy, hx⟩

end Refines

/-- Equal terms have equal values. -/
theorem eval?_congr (hm : m.Exact) {s t : Term α} (h : (s == t) = true) :
    s.eval? m env = t.eval? m env := by
  change beq s t = true at h
  fun_induction beq s t with
  | case1 v w => simp only [eval?, hm.isFinite_congr h, hm.number_congr h]
  | case2 a b => rw [eq_of_beq h]
  | case3 _ _ _ _ ihl ihr | case4 _ _ _ _ ihl ihr | case5 _ _ _ _ ihl ihr | case6 _ _ _ _ ihl ihr =>
    obtain ⟨hl, hr⟩ := Bool.and_eq_true_iff.1 h
    simp only [eval?, ihl hl, ihr hr]
  | case7 b e b' e' ih =>
    obtain ⟨hb, he⟩ := Bool.and_eq_true_iff.1 h
    simp only [eval?, ih hb, hm.power_congr _ he]
  | case8 f a g b ih =>
    obtain ⟨hf, ha⟩ := Bool.and_eq_true_iff.1 h
    simp only [eval?, eq_of_beq hf, ih ha]
  | case9 => cases h

/-- A term that is the constant `v` has the value of `v`. -/
theorem eval?_of_isValue (hm : m.Exact) {t : Term α} {v : α} (h : t.isValue v = true) :
    t.eval? m env = (const v).eval? m env := by
  fun_cases isValue v t with
  | case1 w => simp only [eval?, hm.isFinite_congr h, hm.number_congr h]
  | case2 => simp_all [isValue]

/-- The constant zero has no other value than zero. -/
theorem eq_zero_of_isValue (hm : m.Exact) {t : Term α} {x : K} (h : t.isValue 0 = true)
    (hx : t.eval? m env = some x) : x = 0 := by
  rw [eval?_of_isValue hm h, eval?_const, hm.number_zero] at hx
  exact hx.2.symm

/-- The constant one has no other value than one. -/
theorem eq_one_of_isValue (hm : m.Exact) {t : Term α} {x : K} (h : t.isValue 1 = true)
    (hx : t.eval? m env = some x) : x = 1 := by
  rw [eval?_of_isValue hm h, eval?_const, hm.number_one] at hx
  exact hx.2.symm

end Term

end Fluxion
