import Fluxion.Term.Simplify

/-!
# Canonical order

The terms of a sum are put in descending order of their power of a variable. Terms of equal degree
keep their order, and every term keeps its sign; only a subtracted term that comes to stand first is
negated.
-/

namespace Fluxion

/-- A term of a sum, with the sign that it is added with. -/
structure Summand (α : Type) where
  subtracted : Bool
  term : Term α
  deriving Repr, Inhabited

namespace Term

variable {α : Type}

/-- The terms of a chain of sums and differences that is itself added or subtracted. -/
def summandsOf (subtracted : Bool) : Term α → List (Summand α)
  | sum l r => summandsOf subtracted l ++ summandsOf subtracted r
  | difference l r => summandsOf subtracted l ++ summandsOf (!subtracted) r
  | t => [⟨subtracted, t⟩]

/-- The terms of a chain of sums and differences, from left to right. -/
def summands (t : Term α) : List (Summand α) := t.summandsOf false

variable [Scalar α]

/-- The power of the variable in a monomial; any other term has degree zero. -/
def degree (var : String) : Term α → α
  | symbol name => if name == var then 1 else 0
  | power base e => if base.isSymbol var then e else 0
  | product (const _) right => right.degree var
  | _ => 0

/-- Adds a signed term on the right. -/
def append (t : Term α) (s : Summand α) : Term α :=
  if s.subtracted then difference t s.term else sum t s.term

/-- The first term of a sum: a subtracted one is negated. -/
def ofFirst (s : Summand α) : Term α :=
  if s.subtracted then (Simplified.neg s.term).term else s.term

/-- The sum of signed terms, grouped to the left. -/
def ofSummands : List (Summand α) → Term α
  | [] => const 0
  | s :: rest => rest.foldl append (ofFirst s)

/-- Whether a term may stand before another one: its degree is not smaller. -/
def mayPrecede (var : String) (s t : Summand α) : Bool :=
  Scalar.atMost (t.term.degree var) (s.term.degree var)

/-- The term with the operands of its sum in descending order of their power of `var`. -/
def canonicalize (var : String) (t : Term α) : Term α :=
  if t.isAdditive then
    ofSummands (t.summands.mergeSort (mayPrecede var))
  else
    t

end Term

end Fluxion
