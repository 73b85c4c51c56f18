import Fluxion.Proofs.Term.SimplifyValue
import Fluxion.Term.Canonical

/-!
# Canonical order keeps values

A sum has the sum of the signed values of its terms as its value, in whatever order these are added.
Only the term that comes to stand first is changed: if it was subtracted, it is negated by the rules
of simplification.
-/

namespace Fluxion

variable {α K : Type} [Scalar α] [Field K] {m : Interpretation α K} {env : String → K}

namespace Summand

/-- What a term adds to the value of a sum, if it has a value. -/
noncomputable def eval? (m : Interpretation α K) (env : String → K) (s : Summand α) : Option K :=
  (s.term.eval? m env).map fun x => if s.subtracted then -x else x

/-- The sum of the signed values of terms, if each of them has a value. -/
noncomputable def total? (m : Interpretation α K) (env : String → K) :
    List (Summand α) → Option K
  | [] => some 0
  | s :: rest => do return (← s.eval? m env) + (← total? m env rest)

@[simp] theorem eval?_eq_some {s : Summand α} {x : K} :
    s.eval? m env = some x ↔
      ∃ y, s.term.eval? m env = some y ∧ (if s.subtracted then -y else y) = x := by
  simp [eval?]

@[simp] theorem total?_nil {x : K} : total? m env [] = some x ↔ x = 0 := by
  simp [total?, eq_comm]

@[simp] theorem total?_cons {s : Summand α} {rest : List (Summand α)} {x : K} :
    total? m env (s :: rest) = some x ↔
      ∃ y, s.eval? m env = some y ∧ ∃ z, total? m env rest = some z ∧ y + z = x := by
  simp only [total?, Option.bind_eq_bind, Option.bind_eq_some_iff, Option.pure_def,
    Option.some.injEq]

theorem total?_append {ss ts : List (Summand α)} {y z : K} (hs : total? m env ss = some y)
    (ht : total? m env ts = some z) : total? m env (ss ++ ts) = some (y + z) := by
  induction ss generalizing y with
  | nil =>
    rw [total?_nil.1 hs, zero_add]
    exact ht
  | cons s rest ih =>
    obtain ⟨a, ha, b, hb, rfl⟩ := total?_cons.1 hs
    exact total?_cons.2 ⟨a, ha, b + z, ih hb, (add_assoc a b z).symm⟩

/-- The total does not depend on the order. -/
theorem total?_of_perm {ss ts : List (Summand α)} (h : ss.Perm ts) {x : K}
    (hs : total? m env ss = some x) : total? m env ts = some x := by
  induction h generalizing x with
  | nil => exact hs
  | cons s _ ih =>
    obtain ⟨y, hy, z, hz, rfl⟩ := total?_cons.1 hs
    exact total?_cons.2 ⟨y, hy, z, ih hz, rfl⟩
  | swap s t rest =>
    obtain ⟨y, hy, p, hp, rfl⟩ := total?_cons.1 hs
    obtain ⟨w, hw, z, hz, rfl⟩ := total?_cons.1 hp
    exact total?_cons.2 ⟨w, hw, y + z, total?_cons.2 ⟨y, hy, z, hz, rfl⟩, add_left_comm w y z⟩
  | trans _ _ ih₁ ih₂ => exact ih₂ (ih₁ hs)

theorem total?_singleton {subtracted : Bool} {t : Term α} {x : K} (h : t.eval? m env = some x) :
    total? m env [⟨subtracted, t⟩] = some (if subtracted then -x else x) :=
  total?_cons.2 ⟨_, eval?_eq_some.2 ⟨x, h, rfl⟩, 0, total?_nil.2 rfl, add_zero _⟩

end Summand

namespace Term

open Summand (total? total?_append total?_cons)

/-- The terms of a sum add up to the value of the sum, or to its opposite if the sum is subtracted
as a whole. -/
theorem total?_summandsOf {t : Term α} {x : K} (subtracted : Bool)
    (h : t.eval? m env = some x) :
    total? m env (t.summandsOf subtracted) = some (if subtracted then -x else x) := by
  induction t generalizing subtracted x with
  | sum l r ihl ihr =>
    obtain ⟨y, hy, z, hz, rfl⟩ := eval?_sum.1 h
    rw [summandsOf, total?_append (ihl subtracted hy) (ihr subtracted hz)]
    cases subtracted with
    | false => rfl
    | true => simp [add_comm]
  | difference l r ihl ihr =>
    obtain ⟨y, hy, z, hz, rfl⟩ := eval?_difference.1 h
    rw [summandsOf, total?_append (ihl subtracted hy) (ihr (!subtracted) hz)]
    cases subtracted with
    | false => simp [sub_eq_add_neg]
    | true => simp [sub_eq_add_neg, add_comm]
  | const _ | symbol _ | product _ _ _ _ | quotient _ _ _ _ | power _ _ _ | call _ _ _ =>
    exact Summand.total?_singleton h

theorem eval?_append {t : Term α} {s : Summand α} {y z : K} (ht : t.eval? m env = some y)
    (hs : s.eval? m env = some z) : (t.append s).eval? m env = some (y + z) := by
  obtain ⟨w, hw, rfl⟩ := Summand.eval?_eq_some.1 hs
  unfold append
  split
  · exact eval?_difference.2 ⟨y, ht, w, hw, sub_eq_add_neg y w⟩
  · exact eval?_sum.2 ⟨y, ht, w, hw, rfl⟩

theorem eval?_foldl_append {t : Term α} {rest : List (Summand α)} {y z : K}
    (ht : t.eval? m env = some y) (hrest : total? m env rest = some z) :
    (rest.foldl append t).eval? m env = some (y + z) := by
  induction rest generalizing t y z with
  | nil =>
    rw [Summand.total?_nil.1 hrest, add_zero]
    exact ht
  | cons s rest ih =>
    obtain ⟨a, ha, b, hb, rfl⟩ := total?_cons.1 hrest
    rw [← add_assoc]
    exact ih (eval?_append ht ha) hb

theorem eval?_ofFirst (hm : m.Exact) {s : Summand α} {y : K} (hs : s.eval? m env = some y) :
    (ofFirst s).eval? m env = some y := by
  obtain ⟨w, hw, rfl⟩ := Summand.eval?_eq_some.1 hs
  unfold ofFirst
  split
  · exact Simplified.eval?_neg hm hw
  · exact hw

/-- A sum of signed terms has their total as its value. -/
theorem eval?_ofSummands (hm : m.Exact) {ss : List (Summand α)} {x : K}
    (h : total? m env ss = some x) : (ofSummands ss).eval? m env = some x := by
  cases ss with
  | nil =>
    rw [Summand.total?_nil.1 h]
    exact eval?_const.2 ⟨hm.isFinite_zero, hm.number_zero⟩
  | cons s rest =>
    obtain ⟨y, hy, z, hz, rfl⟩ := total?_cons.1 h
    exact eval?_foldl_append (eval?_ofFirst hm hy) hz

/-- A term in canonical order has the value of the term. -/
theorem refines_canonicalize (hm : m.Exact) (var : String) (t : Term α) :
    Refines m env (t.canonicalize var) t := by
  intro x h
  unfold canonicalize
  split
  · have hall : total? m env t.summands = some x := total?_summandsOf false h
    have hsorted : (t.summands.mergeSort (mayPrecede var)).Perm t.summands :=
      List.mergeSort_perm t.summands (mayPrecede var)
    exact eval?_ofSummands hm (Summand.total?_of_perm hsorted.symm hall)
  · exact h

end Term

end Fluxion
