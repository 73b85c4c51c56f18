import Fluxion.Term

/-!
# Identities

The algebraic identities that a simplification is made of, and a term together with the identities
that led to it.
-/

namespace Fluxion

/-- The identities that are applied. -/
inductive Identity where
  /-- `2 + 3 = 5`, `2 * 3 = 6`, `2 ^ 3 = 8` -/
  | foldConstants
  /-- `0 + a = a`, `a + 0 = a` -/
  | addZero
  /-- `a - 0 = a` -/
  | subtractZero
  /-- `0 - a = -a` -/
  | subtractFromZero
  /-- `0 * a = 0`, `a * 0 = 0` -/
  | multiplyZero
  /-- `1 * a = a`, `a * 1 = a` -/
  | multiplyOne
  /-- `a / 1 = a` -/
  | divideOne
  /-- `0 / a = 0` -/
  | divideZero
  /-- `a / a = 1` -/
  | divideSelf
  /-- `a ^ 0 = 1` -/
  | powerZero
  /-- `a ^ 1 = a` -/
  | powerOne
  /-- `a * 3 = 3 * a` -/
  | moveCoefficient
  /-- `2 * (3 * a) = 6 * a`, `(2 * a) * b = 2 * (a * b)`, `a * (2 * b) = 2 * (a * b)` -/
  | combineCoefficients
  /-- `(1 / a) * b = b / a`, `a * (1 / b) = a / b` -/
  | reciprocalProduct
  /-- `cos(x) * x = x * cos(x)` -/
  | reorderFactors
  deriving DecidableEq, Repr, Inhabited

/-- A term and the identities that led to it, in the order in which they were applied. -/
structure Simplified (α : Type) where
  term : Term α
  steps : List Identity
  deriving Repr, Inhabited

namespace Simplified

variable {α : Type}

/-- A term that no identity applies to. -/
def same (t : Term α) : Simplified α := ⟨t, []⟩

/-- A term that a single identity leads to. -/
def byStep (step : Identity) (t : Term α) : Simplified α := ⟨t, [step]⟩

/-- The same term, reached by one more identity before the others. -/
def after (step : Identity) (s : Simplified α) : Simplified α := ⟨s.term, step :: s.steps⟩

/-- Goes on with the term. -/
def andThen (s : Simplified α) (f : Term α → Simplified α) : Simplified α :=
  let next := f s.term
  ⟨next.term, s.steps ++ next.steps⟩

/-- Goes on with both terms. -/
def andBoth (s t : Simplified α) (f : Term α → Term α → Simplified α) : Simplified α :=
  let next := f s.term t.term
  ⟨next.term, s.steps ++ (t.steps ++ next.steps)⟩

end Simplified

end Fluxion
