import Mathlib
import Fluxion.Proofs.Expr.Height
import Fluxion.Proofs.Expr.Soundness
import Fluxion.Proofs.Scalar.Exact

/-!
# Values of expressions

An expression can be read as it stands, as ordinary arithmetic: parentheses only group, operands
that are joined without an operator are multiplied, and a sign gives the opposite. What an
expression becomes has the same value, whether it is a term or an exponent that is worked out on the
way.
-/

namespace Fluxion

/-- Arithmetic in `K`: how numbers are read, and the powers and functions where they are defined. -/
structure Arithmetic (α K : Type) where
  number : α → K
  power : K → K → Option K
  apply : Func → K → Option K

namespace Arithmetic

variable {α K : Type}

/-- Terms read by the arithmetic. Their exponents are read like other numbers. -/
def interpretation (a : Arithmetic α K) : Interpretation α K :=
  ⟨a.number, fun u e => a.power u (a.number e), a.apply⟩

variable [Scalar α]

/-- The number is a proper one and is read as `x`. -/
def Stands (a : Arithmetic α K) (v : α) (x : K) : Prop :=
  Scalar.isFinite v = true ∧ a.number v = x

variable [Field K]

/-- Numbers are exact: what is worked out from proper numbers is a proper number, and has the value
that it should have, wherever there is such a value. -/
structure Exact (a : Arithmetic α K) : Prop where
  one : a.Stands 1 1
  neg {v : α} {x : K} : a.Stands (-v) (-x) ↔ a.Stands v x
  add {v w : α} {x y : K} : a.Stands v x → a.Stands w y → a.Stands (v + w) (x + y)
  sub {v w : α} {x y : K} : a.Stands v x → a.Stands w y → a.Stands (v - w) (x - y)
  mul {v w : α} {x y : K} : a.Stands v x → a.Stands w y → a.Stands (v * w) (x * y)
  div {v w : α} {x y : K} : a.Stands v x → a.Stands w y → y ≠ 0 → a.Stands (v / w) (x / y)
  pow {v w : α} {x y z : K} : a.Stands v x → a.Stands w y → a.power x y = some z →
    a.Stands (Scalar.pow v w) z
  apply {f : Func} {v : α} {x z : K} : a.Stands v x → a.apply f x = some z →
    a.Stands (Scalar.apply f v) z

open scoped Classical in
/-- Real arithmetic. Powers are defined for positive bases, for zero if the exponent is not negative,
and for other bases if it is an integer. -/
noncomputable def real : Arithmetic ℝ ℝ where
  number := id
  power u e :=
    if 0 < u ∨ (u = 0 ∧ 0 ≤ e) ∨ (u ≠ 0 ∧ ∃ n : ℤ, e = n) then some (u ^ e) else none
  apply f u := if f.SmoothAt u then some (f.toReal u) else none

theorem exact_real : real.Exact where
  one := ⟨rfl, rfl⟩
  neg := by
    intro v x
    constructor
    · rintro ⟨-, h⟩
      exact ⟨rfl, neg_injective h⟩
    · rintro ⟨-, rfl⟩
      exact ⟨rfl, rfl⟩
  add := by
    rintro v w x y ⟨-, rfl⟩ ⟨-, rfl⟩
    exact ⟨rfl, rfl⟩
  sub := by
    rintro v w x y ⟨-, rfl⟩ ⟨-, rfl⟩
    exact ⟨rfl, rfl⟩
  mul := by
    rintro v w x y ⟨-, rfl⟩ ⟨-, rfl⟩
    exact ⟨rfl, rfl⟩
  div := by
    rintro v w x y ⟨-, rfl⟩ ⟨-, rfl⟩ -
    exact ⟨rfl, rfl⟩
  pow := by
    rintro v w x y z ⟨-, rfl⟩ ⟨-, rfl⟩ h
    exact ⟨rfl, Option.some.inj (Option.ite_none_right_eq_some.1 h).2⟩
  apply := by
    rintro f v x z ⟨-, rfl⟩ h
    exact ⟨rfl, Option.some.inj (Option.ite_none_right_eq_some.1 h).2⟩

end Arithmetic

open Arithmetic (Stands)

section Reading

variable {α K : Type} [Field K]

open scoped Classical in
/-- What an operator makes of two values, where this is defined. -/
noncomputable def BinaryOp.eval? (a : Arithmetic α K) : BinaryOp → K → K → Option K
  | plus, x, y => some (x + y)
  | minus, x, y => some (x - y)
  | times, x, y => some (x * y)
  | divide, x, y => if y = 0 then none else some (x / y)
  | power, x, y => a.power x y

open scoped Classical in
/-- The value of an expression read as ordinary arithmetic, if it has one. -/
noncomputable def Expr.eval? [Scalar α] (a : Arithmetic α K) (env : String → K) :
    Expr α → Option K
  | number v _ => if Scalar.isFinite v then some (a.number v) else none
  | symbol name _ => some (env name)
  | paren inner _ => inner.eval? a env
  | call func _ _ arg _ => do a.apply func (← arg.eval? a env)
  | negation _ operand _ => do return -(← operand.eval? a env)
  | binary op left right _ => do op.op.eval? a (← left.eval? a env) (← right.eval? a env)

end Reading

/-- The exponents of the powers in a term, from left to right. -/
def Term.exponents {α : Type} : Term α → List α
  | const _ | symbol _ => []
  | sum l r | difference l r | product l r | quotient l r => l.exponents ++ r.exponents
  | power b e => b.exponents ++ [e]
  | call _ a => a.exponents

namespace Expr

variable {α K : Type} [Scalar α] [Field K] {a : Arithmetic α K} {env : String → K}

@[simp] theorem eval?_number {v : α} {s : Span} {x : K} :
    (number v s).eval? a env = some x ↔ a.Stands v x := by
  simp [eval?, Stands]

@[simp] theorem eval?_symbol {name : String} {s : Span} {x : K} :
    (symbol name s : Expr α).eval? a env = some x ↔ env name = x := by
  simp [eval?]

@[simp] theorem eval?_call {func : Func} {name : String} {ns ps : Span} {arg : Expr α} {x : K} :
    (call func name ns arg ps).eval? a env = some x ↔
      ∃ y, arg.eval? a env = some y ∧ a.apply func y = some x := by
  simp [eval?, Option.bind_eq_some_iff]

@[simp] theorem eval?_negation {operand : Expr α} {sign s : Span} {x : K} :
    (negation sign operand s).eval? a env = some x ↔
      ∃ y, operand.eval? a env = some y ∧ -y = x := by
  simp [eval?, Option.bind_eq_some_iff]

@[simp] theorem eval?_binary {op : Operator} {left right : Expr α} {s : Span} {x : K} :
    (binary op left right s).eval? a env = some x ↔
      ∃ y, left.eval? a env = some y ∧ ∃ z, right.eval? a env = some z ∧
        op.op.eval? a y z = some x := by
  simp [eval?, Option.bind_eq_some_iff]

/-- The term of two operands has the value that the operator makes of theirs. -/
theorem eval?_node {op : BinaryOp} {join : Term α → Term α → Term α} (hjoin : node op = some join)
    {l r : Term α} {x : K} :
    (join l r).eval? a.interpretation env = some x ↔
      ∃ y, l.eval? a.interpretation env = some y ∧ ∃ z, r.eval? a.interpretation env = some z ∧
        op.eval? a y z = some x := by
  cases op <;> cases hjoin <;> simp [BinaryOp.eval?]

theorem stands_const {v : α} {x : K} :
    (Term.const v).eval? a.interpretation env = some x ↔ a.Stands v x := Term.eval?_const

variable (ha : a.Exact)

include ha

theorem stands_negOne {x : K} : a.Stands (-1) x ↔ x = -1 := by
  have hneg : a.Stands (-1) (-1) := ha.neg.2 ha.one
  constructor
  · rintro ⟨-, rfl⟩
    exact hneg.2
  · rintro rfl
    exact hneg

/-- The sign of a term gives the opposite value, also where it becomes part of a number. -/
theorem eval?_negate {t : Term α} {x : K} :
    (negate t).eval? a.interpretation env = some x ↔
      ∃ y, t.eval? a.interpretation env = some y ∧ -y = x := by
  have hproduct : (Term.product (.const (-1)) t).eval? a.interpretation env = some x ↔
      ∃ y, t.eval? a.interpretation env = some y ∧ -y = x := by
    simp only [Term.eval?_product, stands_const, stands_negOne ha, exists_eq_left, neg_one_mul]
  cases t with
  | const v =>
    simp only [negate, stands_const]
    constructor
    · intro h
      rw [← neg_neg x] at h
      exact ⟨-x, ha.neg.1 h, neg_neg x⟩
    · rintro ⟨y, hy, rfl⟩
      exact ha.neg.2 hy
  | symbol _ | sum _ _ | difference _ _ | product _ _ | quotient _ _ | power _ _ | call _ _ =>
    exact hproduct

theorem stands_calculate {op : BinaryOp} {v w : α} {x y z : K} (hv : a.Stands v x)
    (hw : a.Stands w y) (h : op.eval? a x y = some z) : a.Stands (calculate op v w) z := by
  cases op with
  | plus =>
    cases h
    exact ha.add hv hw
  | minus =>
    cases h
    exact ha.sub hv hw
  | times =>
    cases h
    exact ha.mul hv hw
  | divide =>
    rw [BinaryOp.eval?] at h
    split at h
    · cases h
    · next hy =>
      cases h
      exact ha.div hv hw hy
  | power => exact ha.pow hv hw h

/-- The number that an expression comes to is its value. -/
theorem stands_of_folded? {e : Expr α} {v : α} {x : K} (h : e.folded? = some v)
    (hx : e.eval? a env = some x) : a.Stands v x := by
  induction e generalizing v x with
  | number w s =>
    cases h
    exact eval?_number.1 hx
  | symbol name s => cases h
  | paren inner s ih => exact ih h hx
  | call func name ns arg ps ih =>
    obtain ⟨w, hw, rfl⟩ := Option.map_eq_some_iff.1 h
    obtain ⟨y, hy, hx⟩ := eval?_call.1 hx
    exact ha.apply (ih hw hy) hx
  | negation sign operand s ih =>
    obtain ⟨w, hw, rfl⟩ := Option.map_eq_some_iff.1 h
    obtain ⟨y, hy, rfl⟩ := eval?_negation.1 hx
    exact ha.neg.2 (ih hw hy)
  | binary op left right s ihl ihr =>
    obtain ⟨v, hv, h⟩ := Option.bind_eq_some_iff.1 h
    obtain ⟨w, hw, h⟩ := Option.bind_eq_some_iff.1 h
    cases h
    obtain ⟨y, hy, z, hz, hx⟩ := eval?_binary.1 hx
    exact stands_calculate ha (ihl hv hy) (ihr hw hz) hx

/-- An expression that comes to a number and also becomes a term has the number as the value of the
term. -/
theorem stands_of_lowered? {e : Expr α} {v : α} {t : Term α} {x : K} (h : e.folded? = some v)
    (ht : e.lowered? = some t) (hx : t.eval? a.interpretation env = some x) : a.Stands v x := by
  induction e generalizing v t x with
  | number w s =>
    cases h
    cases ht
    exact stands_const.1 hx
  | symbol name s => cases h
  | paren inner s ih => exact ih h ht hx
  | call func name ns arg ps ih =>
    obtain ⟨w, hw, rfl⟩ := Option.map_eq_some_iff.1 h
    obtain ⟨s, hs, rfl⟩ := Option.map_eq_some_iff.1 ht
    obtain ⟨y, hy, hx⟩ := Term.eval?_call.1 hx
    exact ha.apply (ih hw hs hy) hx
  | negation sign operand s ih =>
    obtain ⟨w, hw, rfl⟩ := Option.map_eq_some_iff.1 h
    obtain ⟨s, hs, rfl⟩ := Option.map_eq_some_iff.1 ht
    obtain ⟨y, hy, rfl⟩ := (eval?_negate ha).1 hx
    exact ha.neg.2 (ih hw hs hy)
  | binary op left right s ihl ihr =>
    obtain ⟨v, hv, h⟩ := Option.bind_eq_some_iff.1 h
    obtain ⟨w, hw, h⟩ := Option.bind_eq_some_iff.1 h
    cases h
    obtain ⟨l, hl, ht⟩ := Option.bind_eq_some_iff.1 ht
    split at ht
    · next join hjoin =>
      obtain ⟨r, hr, rfl⟩ := Option.map_eq_some_iff.1 ht
      obtain ⟨y, hy, z, hz, hx⟩ := (eval?_node hjoin).1 hx
      exact stands_calculate ha (ihl hv hl hy) (ihr hw hr hz) hx
    · next hpower =>
      obtain ⟨e, he, rfl⟩ := Option.map_eq_some_iff.1 ht
      obtain ⟨he, hfinite⟩ := exponent?_eq_some_iff.1 he
      obtain ⟨y, hy, hx⟩ := Term.eval?_power.1 hx
      -- the term has worked out the nested exponent as well, to the same number
      obtain rfl : w = e := Option.some.inj (hw.symm.trans he)
      rw [node_eq_none_iff.1 hpower]
      exact ha.pow (ihl hv hl hy) ⟨hfinite, rfl⟩ hx

/-- The term of an expression has its value. -/
theorem eval?_of_lowered? {e : Expr α} {t : Term α} {x : K} (h : e.lowered? = some t)
    (hx : e.eval? a env = some x) : t.eval? a.interpretation env = some x := by
  induction e generalizing t x with
  | number w s =>
    cases h
    exact stands_const.2 (eval?_number.1 hx)
  | symbol name s =>
    cases h
    exact Term.eval?_symbol.2 (eval?_symbol.1 hx)
  | paren inner s ih => exact ih h hx
  | call func name ns arg ps ih =>
    obtain ⟨s, hs, rfl⟩ := Option.map_eq_some_iff.1 h
    obtain ⟨y, hy, hx⟩ := eval?_call.1 hx
    exact Term.eval?_call.2 ⟨y, ih hs hy, hx⟩
  | negation sign operand s ih =>
    obtain ⟨s, hs, rfl⟩ := Option.map_eq_some_iff.1 h
    obtain ⟨y, hy, rfl⟩ := eval?_negation.1 hx
    exact (eval?_negate ha).2 ⟨y, ih hs hy, rfl⟩
  | binary op left right s ihl ihr =>
    obtain ⟨l, hl, h⟩ := Option.bind_eq_some_iff.1 h
    obtain ⟨y, hy, z, hz, hx⟩ := eval?_binary.1 hx
    split at h
    · next join hjoin =>
      obtain ⟨r, hr, rfl⟩ := Option.map_eq_some_iff.1 h
      exact (eval?_node hjoin).2 ⟨y, ihl hl hy, z, ihr hr hz, hx⟩
    · next hpower =>
      obtain ⟨e, he, rfl⟩ := Option.map_eq_some_iff.1 h
      -- the exponent is no term but a number that was worked out
      have hexponent : a.Stands e z := stands_of_folded? ha (exponent?_eq_some_iff.1 he).1 hz
      rw [node_eq_none_iff.1 hpower] at hx
      refine Term.eval?_power.2 ⟨y, ihl hl hy, ?_⟩
      change a.power y (a.number e) = some x
      rw [hexponent.2]
      exact hx

end Expr

namespace Expr

variable {α : Type}

/-- Whether every call applies the function that its name stands for. -/
def CallsNamed : Expr α → Prop
  | number _ _ | symbol _ _ => True
  | paren inner _ => inner.CallsNamed
  | call func name _ arg _ => Func.ofName? name = some func ∧ arg.CallsNamed
  | negation _ operand _ => operand.CallsNamed
  | binary _ left right _ => left.CallsNamed ∧ right.CallsNamed

theorem callsNamed_of_derives [Numeral α] {cat : Category} {c c' : Cursor} {e : Expr α}
    (h : Derives cat c e c') : e.CallsNamed := by
  induction h with
  | number _ | symbol _ _ _ => trivial
  | paren _ _ _ ih => exact ih
  | call _ hname _ _ _ ih => exact ⟨hname, ih⟩
  | atom _ ih | unsigned _ ih | factor _ ih | term _ ih => exact ih
  | negation _ _ ih => exact ih
  | power _ _ _ ihl ihr => exact ⟨ihl, ihr⟩
  | product _ _ _ _ ihl ihr | sum _ _ _ _ ihl ihr => exact ⟨ihl, ihr⟩
  | juxtaposed _ _ _ _ ihl ihr => exact ⟨ihl, ihr⟩

theorem exponents_node {op : BinaryOp} {join : Term α → Term α → Term α}
    (hjoin : node op = some join) (l r : Term α) :
    (join l r).exponents = l.exponents ++ r.exponents := by
  cases op <;> cases hjoin <;> rfl

theorem exponents_negate [Scalar α] (t : Term α) : (negate t).exponents = t.exponents := by
  cases t <;> rfl

/-- The exponents in the term are what the exponents in the expression come to, one by one. -/
theorem exponents_lowered? [Scalar α] {e : Expr α} {t : Term α} (h : e.lowered? = some t) :
    List.Forall₂ (fun r v => r.exponent? = some v) e.exponents t.exponents := by
  induction e generalizing t with
  | number w s | symbol name s =>
    cases h
    exact .nil
  | paren inner s ih => exact ih h
  | call func name ns arg ps ih =>
    obtain ⟨u, hu, rfl⟩ := Option.map_eq_some_iff.1 h
    have harg := ih hu
    exact harg
  | negation sign operand s ih =>
    obtain ⟨u, hu, rfl⟩ := Option.map_eq_some_iff.1 h
    rw [exponents_negate]
    exact ih hu
  | binary op left right s ihl ihr =>
    obtain ⟨l, hl, h⟩ := Option.bind_eq_some_iff.1 h
    split at h
    · next join hjoin =>
      obtain ⟨r, hr, rfl⟩ := Option.map_eq_some_iff.1 h
      have hop : op.op ≠ .power := fun hop => nomatch (node_eq_none_iff.2 hop).symm.trans hjoin
      rw [exponents, if_neg hop, exponents_node hjoin]
      exact List.rel_append (ihl hl) (ihr hr)
    · next hpower =>
      obtain ⟨v, hv, rfl⟩ := Option.map_eq_some_iff.1 h
      rw [exponents, if_pos (node_eq_none_iff.1 hpower)]
      exact List.rel_append (ihl hl) (.cons hv .nil)

end Expr

namespace Expr

variable {α K : Type} [Scalar α] [Field K] {a : Arithmetic α K}

/-- Wherever an expression has a value, its term has it too. The exponents of the term are the values
of the exponents of the expression, and of the terms of these, where there are such. In an expression
that is read from a text, a function is the one that its name stands for. -/
theorem eval?_ofExpr (ha : a.Exact) {most : Nat} {e : Expr α} {t : Term α}
    (h : Term.ofExpr most e = .ok t) :
    (∀ env x, e.eval? a env = some x → t.eval? a.interpretation env = some x) ∧
    List.Forall₂ (fun r v => ∀ env x,
        (r.eval? a env = some x → a.Stands v x) ∧
        (∀ most' s, Term.ofExpr most' r = .ok s → s.eval? a.interpretation env = some x →
          a.Stands v x))
      e.exponents t.exponents ∧
    (∀ [Numeral α] text, ofText text = .ok e → e.CallsNamed) := by
  have hlowered : e.lowered? = some t := lowered?_of_term h
  refine ⟨fun env x => eval?_of_lowered? ha hlowered, ?_, ?_⟩
  · refine (exponents_lowered? hlowered).imp fun r v hv => ?_
    have hfolded := (exponent?_eq_some_iff.1 hv).1
    intro env x
    refine ⟨stands_of_folded? ha hfolded, fun most' s hs => ?_⟩
    exact stands_of_lowered? ha hfolded (lowered?_of_term hs)
  · intro _ text htext
    exact callsNamed_of_derives (spells_of_ofText htext).1

/-- `-2sen(x)^(2^-1 + 3/2)` is `-2` at a quarter turn. -/
theorem eval?_ofExpr_sen :
    let sen : Expr ℝ := .call .sin "sen" ⟨2, 5⟩ (.symbol "x" ⟨6, 7⟩) ⟨5, 8⟩
    let half : Expr ℝ := .binary ⟨.power, false, ⟨11, 12⟩⟩ (.number 2 ⟨10, 11⟩)
      (.negation ⟨12, 13⟩ (.number 1 ⟨13, 14⟩) ⟨12, 14⟩) ⟨10, 14⟩
    let more : Expr ℝ := .binary ⟨.divide, false, ⟨18, 19⟩⟩ (.number 3 ⟨17, 18⟩)
      (.number 2 ⟨19, 20⟩) ⟨17, 20⟩
    let two : Expr ℝ := .binary ⟨.plus, false, ⟨15, 16⟩⟩ half more ⟨10, 20⟩
    let r : Expr ℝ := .paren two ⟨9, 21⟩
    let e : Expr ℝ := .binary ⟨.times, true, ⟨2, 2⟩⟩
      (.negation ⟨0, 1⟩ (.number 2 ⟨1, 2⟩) ⟨0, 2⟩)
      (.binary ⟨.power, false, ⟨8, 9⟩⟩ sen r ⟨2, 21⟩) ⟨0, 21⟩
    let v : ℝ := (2 : ℝ) ^ (-1 : ℝ) + 3 / 2
    let t : Term ℝ := .product (.const (-2)) (.power (.call .sin (.symbol "x")) v)
    let env := fun _ => Real.pi / 2
    Arithmetic.real.Exact ∧ Term.ofExpr 6 e = .ok t ∧ e.exponents = [r] ∧ t.exponents = [v] ∧
    e.eval? Arithmetic.real env = some (-2) ∧
    t.eval? Arithmetic.real.interpretation env = some (-2) ∧
    r.eval? Arithmetic.real env = some 2 ∧ Arithmetic.real.Stands v 2 := by
  intro sen half more two r e v t env
  have hterm : Term.ofExpr 6 e = .ok t := rfl
  have hnumber (w : ℝ) (s : Span) : (number w s).eval? Arithmetic.real env = some w :=
    eval?_number.2 ⟨rfl, rfl⟩
  have hhalf : half.eval? Arithmetic.real env = some (2 ^ (-1 : ℝ)) := by
    refine eval?_binary.2 ⟨2, hnumber _ _, -1, eval?_negation.2 ⟨1, hnumber _ _, rfl⟩, ?_⟩
    exact if_pos (.inl two_pos)
  have htwo : two.eval? Arithmetic.real env = some 2 := by
    refine eval?_binary.2 ⟨_, hhalf, 3 / 2, eval?_binary.2 ⟨3, hnumber _ _, 2, hnumber _ _, ?_⟩, ?_⟩
    · exact if_neg two_ne_zero
    · rw [BinaryOp.eval?, Real.rpow_neg_one]
      norm_num
  have hr : r.eval? Arithmetic.real env = some 2 := htwo
  have hsen : sen.eval? Arithmetic.real env = some 1 := by
    refine eval?_call.2 ⟨Real.pi / 2, rfl, ?_⟩
    exact (if_pos trivial).trans (congrArg some Real.sin_pi_div_two)
  have he : e.eval? Arithmetic.real env = some (-2) := by
    refine eval?_binary.2 ⟨-2, eval?_negation.2 ⟨2, hnumber _ _, rfl⟩, 1, ?_, ?_⟩
    · refine eval?_binary.2 ⟨1, hsen, 2, hr, ?_⟩
      exact (if_pos (.inl one_pos)).trans (congrArg some (Real.one_rpow 2))
    · exact congrArg some (mul_one (-2))
  obtain ⟨heval, hexponents, -⟩ := eval?_ofExpr Arithmetic.exact_real hterm
  have hv : Arithmetic.real.Stands v 2 := by
    have hv := (List.forall₂_cons.1 hexponents).1
    exact (hv env 2).1 hr
  exact ⟨Arithmetic.exact_real, hterm, rfl, rfl, he, heval env _ he, hr, hv⟩

end Expr

end Fluxion
