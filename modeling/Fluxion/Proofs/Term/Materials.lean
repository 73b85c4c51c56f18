import Fluxion.Proofs.Term.SimplifyValue
import Fluxion.Term.Derivative

/-!
# What terms are made of

Simplification, differentiation and canonical order take a term apart and put it together again.
They work out numbers, but only keep those that are proper, and they bring in no symbol. Hence a
property that is a matter of the parts of a term, and that proper numbers have, is kept; canonical
order keeps any that is a matter of the operands of sums. So what is made of proper numbers and given
symbols stays so.
-/

namespace Fluxion

/-- Numbers of which those that the rules of differentiation bring in are proper, and which stay
proper when their sign is changed and when one is subtracted. -/
class ProperScalar (α : Type) [Scalar α] : Prop where
  isFinite_zero : Scalar.isFinite (0 : α) = true
  isFinite_one : Scalar.isFinite (1 : α) = true
  isFinite_two : Scalar.isFinite (Scalar.two : α) = true
  isFinite_lnTen : Scalar.isFinite (Scalar.lnTen : α) = true
  isFinite_neg {v : α} : Scalar.isFinite v = true → Scalar.isFinite (-v) = true
  isFinite_pred {v : α} : Scalar.isFinite v = true → Scalar.isFinite (v - 1) = true

namespace ProperScalar

theorem isFinite_negOne {α : Type} [Scalar α] [ProperScalar α] :
    Scalar.isFinite (-1 : α) = true :=
  isFinite_neg isFinite_one

end ProperScalar

/-- Numbers that are multiplied with zero, one and minus one without an overflow. -/
class UnitalScalar (α : Type) [Scalar α] : Prop where
  isFinite_zero_mul {c v : α} : (c == 0) = true → Scalar.isFinite v = true →
    Scalar.isFinite (c * v) = true
  isFinite_one_mul {c v : α} : (c == 1) = true → Scalar.isFinite v = true →
    Scalar.isFinite (c * v) = true
  isFinite_opposite {c v : α} : (c == -1) = true → Scalar.isFinite v = true →
    Scalar.isFinite (c * v) = true

namespace Term

variable {α : Type} [Scalar α]

/-- Every number of the term, exponents included, is a proper one, and every symbol is allowed. -/
def MadeOf (allowed : String → Prop) : Term α → Prop
  | const v => Scalar.isFinite v = true
  | symbol name => allowed name
  | sum l r | difference l r | product l r | quotient l r => l.MadeOf allowed ∧ r.MadeOf allowed
  | power b e => b.MadeOf allowed ∧ Scalar.isFinite e = true
  | call _ a => a.MadeOf allowed

theorem proper_iff_madeOf (t : Term α) : t.Proper ↔ t.MadeOf fun _ => True := by
  induction t with
  | const _ | symbol _ => rfl
  | sum l r ihl ihr | difference l r ihl ihr | product l r ihl ihr | quotient l r ihl ihr =>
    exact and_congr ihl ihr
  | power b e ih => exact and_congr_left' ih
  | call f a ih => exact ih

end Term

/-- A property of terms that is a matter of their parts: a node has it if and only if its operands
have it and its exponent is allowed, and constants with proper numbers have it. -/
structure Hereditary {α : Type} [Scalar α] (P : Term α → Prop) (exponent : α → Prop) : Prop where
  const {v : α} : Scalar.isFinite v = true → P (.const v)
  sum {l r : Term α} : P (.sum l r) ↔ P l ∧ P r
  difference {l r : Term α} : P (.difference l r) ↔ P l ∧ P r
  product {l r : Term α} : P (.product l r) ↔ P l ∧ P r
  quotient {l r : Term α} : P (.quotient l r) ↔ P l ∧ P r
  power {b : Term α} {e : α} : P (.power b e) ↔ P b ∧ exponent e
  call {f : Func} {a : Term α} : P (.call f a) ↔ P a

/-- A property of terms that a sum has if and only if its operands have it. Zero has it, and negation
keeps it. -/
structure Additive {α : Type} [Scalar α] (P : Term α → Prop) : Prop where
  zero : P (.const 0)
  sum {l r : Term α} : P (.sum l r) ↔ P l ∧ P r
  difference {l r : Term α} : P (.difference l r) ↔ P l ∧ P r
  neg {t : Term α} : P t → P (Simplified.neg t).term

namespace Additive

variable {α : Type} [Scalar α] {P : Term α → Prop}

theorem of_mem_summandsOf (h : Additive P) {t : Term α} (ht : P t) (subtracted : Bool)
    {s : Summand α} (hs : s ∈ t.summandsOf subtracted) : P s.term := by
  induction t generalizing subtracted with
  | sum l r ihl ihr =>
    rcases List.mem_append.1 hs with hs | hs
    · exact ihl (h.sum.1 ht).1 _ hs
    · exact ihr (h.sum.1 ht).2 _ hs
  | difference l r ihl ihr =>
    rcases List.mem_append.1 hs with hs | hs
    · exact ihl (h.difference.1 ht).1 _ hs
    · exact ihr (h.difference.1 ht).2 _ hs
  | const _ | symbol _ | product _ _ _ _ | quotient _ _ _ _ | power _ _ _ | call _ _ _ =>
    cases List.mem_singleton.1 hs
    exact ht

theorem append (h : Additive P) {t : Term α} {s : Summand α} (ht : P t) (hs : P s.term) :
    P (t.append s) := by
  unfold Term.append
  split
  · exact h.difference.2 ⟨ht, hs⟩
  · exact h.sum.2 ⟨ht, hs⟩

theorem foldl_append (h : Additive P) {t : Term α} {rest : List (Summand α)} (ht : P t)
    (hrest : ∀ s ∈ rest, P s.term) : P (rest.foldl Term.append t) := by
  induction rest generalizing t with
  | nil => exact ht
  | cons s rest ih =>
    exact ih (h.append ht (hrest s List.mem_cons_self)) fun u hu =>
      hrest u (List.mem_cons_of_mem s hu)

theorem ofSummands (h : Additive P) {ss : List (Summand α)} (hss : ∀ s ∈ ss, P s.term) :
    P (Term.ofSummands ss) := by
  cases ss with
  | nil => exact h.zero
  | cons s rest =>
    have hfirst : P (Term.ofFirst s) := by
      unfold Term.ofFirst
      split
      · exact h.neg (hss s List.mem_cons_self)
      · exact hss s List.mem_cons_self
    exact h.foldl_append hfirst fun u hu => hss u (List.mem_cons_of_mem s hu)

/-- Canonical order keeps what the operands of a sum have. -/
theorem canonicalize (h : Additive P) (var : String) {t : Term α} (ht : P t) :
    P (t.canonicalize var) := by
  unfold Term.canonicalize
  split
  · refine h.ofSummands ?_
    intro s hs
    exact h.of_mem_summandsOf ht false (List.mem_mergeSort.1 hs)
  · exact ht

end Additive

namespace Hereditary

open Simplified (reciprocal? reciprocal?_eq_some)

variable {α : Type} [Scalar α] {P : Term α → Prop} {exponent : α → Prop}

theorem of_reciprocal (h : Hereditary P exponent) {t d : Term α} (ht : P t)
    (hd : reciprocal? t = some d) : P d := by
  obtain ⟨l, rfl, -⟩ := reciprocal?_eq_some hd
  exact (h.quotient.1 ht).2

/-- A number is only worked out if it is proper. -/
theorem foldOr (h : Hereditary P exponent) {v : α} {otherwise : Simplified α}
    (ho : P otherwise.term) : P (Simplified.foldOr v otherwise).term := by
  unfold Simplified.foldOr
  split
  · next hfinite => exact h.const hfinite
  · exact ho

theorem addNode (h : Hereditary P exponent) {l r : Term α} (hl : P l) (hr : P r) :
    P (Simplified.addNode l r).term := by
  unfold Simplified.addNode
  split
  · exact hl
  · split
    · exact hr
    · exact h.sum.2 ⟨hl, hr⟩

theorem add (h : Hereditary P exponent) {l r : Term α} (hl : P l) (hr : P r) :
    P (Simplified.add l r).term := by
  unfold Simplified.add
  split
  · exact h.foldOr (h.addNode hl hr)
  · exact h.addNode hl hr

variable [ProperScalar α]

theorem divNode (h : Hereditary P exponent) {l r : Term α} (hl : P l) (hr : P r) :
    P (Simplified.divNode l r).term := by
  unfold Simplified.divNode
  split
  · exact hl
  · split
    · exact h.const ProperScalar.isFinite_zero
    · split
      · exact h.const ProperScalar.isFinite_one
      · exact h.quotient.2 ⟨hl, hr⟩

theorem div (h : Hereditary P exponent) {l r : Term α} (hl : P l) (hr : P r) :
    P (Simplified.div l r).term := by
  unfold Simplified.div
  split
  · split
    · exact h.divNode hl hr
    · exact h.foldOr (h.divNode hl hr)
  · exact h.divNode hl hr

theorem pow (h : Hereditary P exponent) {b : Term α} {e : α} (hb : P b) (he : exponent e) :
    P (Simplified.pow b e).term := by
  unfold Simplified.pow
  split
  · exact h.const ProperScalar.isFinite_one
  · split
    · exact hb
    · split
      · exact h.foldOr (h.power.2 ⟨hb, he⟩)
      · exact h.power.2 ⟨hb, he⟩

theorem scaleBy (h : Hereditary P exponent) {c : α} {t : Term α} {otherwise : Simplified α}
    (ht : P t) (ho : P otherwise.term) : P (Simplified.scaleBy c t otherwise).term := by
  unfold Simplified.scaleBy
  split
  · exact h.const ProperScalar.isFinite_zero
  · split
    · exact ht
    · exact ho

theorem scale (h : Hereditary P exponent) {c : α} {t : Term α} (hc : P (.const c)) (ht : P t) :
    P (Simplified.scale c t).term := by
  fun_induction Simplified.scale c t with
  | case1 c v => exact h.foldOr (h.product.2 ⟨hc, ht⟩)
  | case2 c d t ih =>
    refine h.scaleBy ht ?_
    split
    · next hfinite => exact ih (h.const hfinite) (h.product.1 ht).2
    · exact h.product.2 ⟨hc, ht⟩
  | case3 c t _ _ =>
    refine h.scaleBy ht ?_
    split
    · next d hd => exact h.div hc (h.of_reciprocal ht hd)
    · exact h.product.2 ⟨hc, ht⟩

theorem scaleRight (h : Hereditary P exponent) {l : Term α} {c : α} (hl : P l)
    (hc : P (.const c)) : P (Simplified.scaleRight l c).term :=
  h.scaleBy hl (h.scale hc hl)

theorem mulFactors (h : Hereditary P exponent) {l r : Term α} (hl : P l) (hr : P r) :
    P (Simplified.mulFactors l r).term := by
  unfold Simplified.mulFactors
  split
  · next d hd => exact h.div hr (h.of_reciprocal hl hd)
  · split
    · next d hd => exact h.div hl (h.of_reciprocal hr hd)
    · split
      · exact h.product.2 ⟨hr, hl⟩
      · exact h.product.2 ⟨hl, hr⟩

theorem mulRight (h : Hereditary P exponent) {l r : Term α} (hl : P l) (hr : P r) :
    P (Simplified.mulRight l r).term := by
  fun_induction Simplified.mulRight l r with
  | case1 c => exact h.scaleRight hl hr
  | case2 c r ih => exact h.scale (h.product.1 hr).1 (ih (h.product.1 hr).2)
  | case3 r _ _ => exact h.mulFactors hl hr

theorem mul (h : Hereditary P exponent) {l r : Term α} (hl : P l) (hr : P r) :
    P (Simplified.mul l r).term := by
  fun_induction Simplified.mul l r with
  | case1 c r => exact h.scale hl hr
  | case2 c l d => exact h.scaleRight hl hr
  | case3 c l r _ ih => exact h.scale (h.product.1 hl).1 (ih (h.product.1 hl).2 hr)
  | case4 l r _ _ => exact h.mulRight hl hr

theorem neg (h : Hereditary P exponent) {t : Term α} (ht : P t) : P (Simplified.neg t).term :=
  h.scale (h.const ProperScalar.isFinite_negOne) ht

theorem subNode (h : Hereditary P exponent) {l r : Term α} (hl : P l) (hr : P r) :
    P (Simplified.subNode l r).term := by
  unfold Simplified.subNode
  split
  · exact hl
  · split
    · exact h.neg hr
    · exact h.difference.2 ⟨hl, hr⟩

theorem sub (h : Hereditary P exponent) {l r : Term α} (hl : P l) (hr : P r) :
    P (Simplified.sub l r).term := by
  unfold Simplified.sub
  split
  · exact h.foldOr (h.subNode hl hr)
  · exact h.subNode hl hr

/-- What is a matter of the parts of a term is kept by simplification. -/
theorem simplify (h : Hereditary P exponent) {t : Term α} (ht : P t) : P t.simplify := by
  induction t with
  | const _ | symbol _ => exact ht
  | sum l r ihl ihr => exact h.add (ihl (h.sum.1 ht).1) (ihr (h.sum.1 ht).2)
  | difference l r ihl ihr => exact h.sub (ihl (h.difference.1 ht).1) (ihr (h.difference.1 ht).2)
  | product l r ihl ihr => exact h.mul (ihl (h.product.1 ht).1) (ihr (h.product.1 ht).2)
  | quotient l r ihl ihr => exact h.div (ihl (h.quotient.1 ht).1) (ihr (h.quotient.1 ht).2)
  | power b e ih => exact h.pow (ih (h.power.1 ht).1) (h.power.1 ht).2
  | call f a ih => exact h.call.2 (ih (h.call.1 ht))

theorem additive (h : Hereditary P exponent) : Additive P where
  zero := h.const ProperScalar.isFinite_zero
  sum := h.sum
  difference := h.difference
  neg := h.neg

end Hereditary

variable {α : Type} [Scalar α] {allowed : String → Prop}

/-! ## Proper numbers and given symbols -/

namespace Term

theorem hereditary_madeOf :
    Hereditary (MadeOf (α := α) allowed) fun e => Scalar.isFinite e = true where
  const h := h
  sum := .rfl
  difference := .rfl
  product := .rfl
  quotient := .rfl
  power := .rfl
  call := .rfl

variable [ProperScalar α]

theorem madeOf_canonicalize (var : String) {t : Term α} (h : t.MadeOf allowed) :
    (t.canonicalize var).MadeOf allowed :=
  hereditary_madeOf.additive.canonicalize var h

theorem madeOf_outerDerivative (f : Func) {arg : Term α} (h : arg.MadeOf allowed) :
    (outerDerivative f arg).MadeOf allowed := by
  cases f with
  | sin => exact h
  | cos => exact ⟨ProperScalar.isFinite_negOne, h⟩
  | tan => exact ⟨⟨ProperScalar.isFinite_one, h⟩, ProperScalar.isFinite_two⟩
  | ln => exact ⟨ProperScalar.isFinite_one, h⟩
  | log => exact ⟨ProperScalar.isFinite_one, h, ProperScalar.isFinite_lnTen⟩
  | exp => exact h

theorem madeOf_powerDerivative {base : Term α} {e : α} (hbase : base.MadeOf allowed)
    (he : Scalar.isFinite e = true) : (powerDerivative base e).MadeOf allowed :=
  ⟨he, hbase, ProperScalar.isFinite_pred he⟩

theorem madeOf_derivative (var : String) {t : Term α} (h : t.MadeOf allowed) :
    (t.derivative var).MadeOf allowed := by
  induction t with
  | const _ => exact ProperScalar.isFinite_zero
  | symbol name =>
    unfold derivative
    split
    · exact ProperScalar.isFinite_one
    · exact ProperScalar.isFinite_zero
  | sum l r ihl ihr | difference l r ihl ihr => exact ⟨ihl h.1, ihr h.2⟩
  | product l r ihl ihr => exact ⟨⟨ihl h.1, h.2⟩, h.1, ihr h.2⟩
  | quotient l r ihl ihr =>
    exact ⟨⟨⟨ihl h.1, h.2⟩, h.1, ihr h.2⟩, h.2, ProperScalar.isFinite_two⟩
  | power b e ih =>
    unfold derivative
    split
    · exact madeOf_powerDerivative h.1 h.2
    · exact ⟨madeOf_powerDerivative h.1 h.2, ih h.1⟩
  | call f a ih => exact ⟨madeOf_outerDerivative f h, ih h⟩

end Term

namespace Simplified

variable [ProperScalar α]

theorem madeOf_ofTerm {t : Term α} (h : t.MadeOf allowed) : (ofTerm t).term.MadeOf allowed :=
  Term.hereditary_madeOf.simplify h

end Simplified

end Fluxion
