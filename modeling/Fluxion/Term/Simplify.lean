import Fluxion.Term.Identity

/-!
# Simplification

A term is simplified from its leaves to its root: each node is built anew from its simplified
operands, and building applies every identity that fits. Constants are only worked out where the
result is a proper number, so `1/0` stays as it is. Coefficients are gathered on the left of
products.
-/

namespace Fluxion

namespace Simplified

variable {α : Type} [Scalar α]

/-- A constant that was worked out, if it is a proper number, and otherwise the given term. -/
@[macro_inline]
def foldOr (value : α) (otherwise : Simplified α) : Simplified α :=
  if Scalar.isFinite value then byStep .foldConstants (.const value) else otherwise

/-- `l / r` for operands that are not both constants, or constants that cannot be worked out. -/
def divNode (l r : Term α) : Simplified α :=
  if r.isValue 1 then
    byStep .divideOne l
  else if l.isValue 0 && !r.isValue 0 then
    byStep .divideZero (.const 0)
  else if l == r && !r.isValue 0 then
    byStep .divideSelf (.const 1)
  else
    same (.quotient l r)

/-- `l / r` -/
def div : Term α → Term α → Simplified α
  | .const v, .const w =>
    if w == 0 then
      divNode (.const v) (.const w)
    else
      foldOr (v / w) (divNode (.const v) (.const w))
  | l, r => divNode l r

/-- The place of a factor in a product of two: symbols and their powers come first, then other
powers, then functions. Other factors keep their place. -/
def factorRank : Term α → Option Nat
  | .symbol _ | .power (.symbol _) _ => some 0
  | .power _ _ => some 1
  | .call _ _ => some 2
  | _ => none

/-- The denominator of a term of the form `1 / denominator`. -/
def reciprocal? : Term α → Option (Term α)
  | .quotient l r => if l.isValue 1 then some r else none
  | _ => none

/-- Whether two factors stand in the wrong order. -/
def outOfOrder (l r : Term α) : Bool :=
  match factorRank l, factorRank r with
  | some i, some j => j < i
  | _, _ => false

/-- `l * r` for factors without coefficients. -/
def mulFactors (l r : Term α) : Simplified α :=
  match reciprocal? l with
  | some denominator => (div r denominator).after .reciprocalProduct
  | none =>
    match reciprocal? r with
    | some denominator => (div l denominator).after .reciprocalProduct
    | none =>
      if outOfOrder l r then
        byStep .reorderFactors (.product r l)
      else
        same (.product l r)

/-- `c * t`, unless `c` or `t` settles the product at once. -/
@[macro_inline]
def scaleBy (c : α) (t : Term α) (otherwise : Simplified α) : Simplified α :=
  if c == 0 then
    byStep .multiplyZero (.const 0)
  else if c == 1 then
    byStep .multiplyOne t
  else
    otherwise

/-- `c * t` -/
def scale (c : α) : Term α → Simplified α
  | .const v => foldOr (c * v) (same (.product (.const c) (.const v)))
  | .product (.const d) t =>
    scaleBy c (.product (.const d) t) <|
      if Scalar.isFinite (c * d) then
        (scale (c * d) t).after .combineCoefficients
      else
        same (.product (.const c) (.product (.const d) t))
  | t =>
    scaleBy c t <|
      match reciprocal? t with
      | some denominator => (div (.const c) denominator).after .reciprocalProduct
      | none => same (.product (.const c) t)

/-- `l * c`, where `l` is not a constant. -/
def scaleRight (l : Term α) (c : α) : Simplified α :=
  scaleBy c l ((scale c l).after .moveCoefficient)

/-- `l * r`, where `l` is neither a constant nor has a coefficient. -/
def mulRight (l : Term α) : Term α → Simplified α
  | .const c => scaleRight l c
  | .product (.const c) r => ((mulRight l r).andThen (scale c)).after .combineCoefficients
  | r => mulFactors l r

/-- `l * r` -/
def mul : Term α → Term α → Simplified α
  | .const c, r => scale c r
  | .product (.const c) l, r =>
    match r with
    | .const d => scaleRight (.product (.const c) l) d
    | r => ((mul l r).andThen (scale c)).after .combineCoefficients
  | l, r => mulRight l r

/-- `-t` -/
def neg (t : Term α) : Simplified α := scale (-1) t

/-- `l + r` for operands that are not both constants, or constants that cannot be worked out. -/
def addNode (l r : Term α) : Simplified α :=
  if r.isValue 0 then
    byStep .addZero l
  else if l.isValue 0 then
    byStep .addZero r
  else
    same (.sum l r)

/-- `l + r` -/
def add : Term α → Term α → Simplified α
  | .const v, .const w => foldOr (v + w) (addNode (.const v) (.const w))
  | l, r => addNode l r

/-- `l - r` for operands that are not both constants, or constants that cannot be worked out. -/
def subNode (l r : Term α) : Simplified α :=
  if r.isValue 0 then
    byStep .subtractZero l
  else if l.isValue 0 then
    (neg r).after .subtractFromZero
  else
    same (.difference l r)

/-- `l - r` -/
def sub : Term α → Term α → Simplified α
  | .const v, .const w => foldOr (v - w) (subNode (.const v) (.const w))
  | l, r => subNode l r

/-- `b ^ e` -/
def pow (b : Term α) (e : α) : Simplified α :=
  if e == 0 then
    byStep .powerZero (.const 1)
  else if e == 1 then
    byStep .powerOne b
  else
    match b with
    | .const v => foldOr (Scalar.pow v e) (same (.power (.const v) e))
    | b => same (.power b e)

/-- A term, simplified. -/
def ofTerm : Term α → Simplified α
  | .const v => same (.const v)
  | .symbol name => same (.symbol name)
  | .sum l r => (ofTerm l).andBoth (ofTerm r) add
  | .difference l r => (ofTerm l).andBoth (ofTerm r) sub
  | .product l r => (ofTerm l).andBoth (ofTerm r) mul
  | .quotient l r => (ofTerm l).andBoth (ofTerm r) div
  | .power b e => (ofTerm b).andThen fun b => pow b e
  | .call f a => (ofTerm a).andThen fun a => same (.call f a)

end Simplified

namespace Term

variable {α : Type} [Scalar α]

/-- The term with every identity applied. -/
def simplify (t : Term α) : Term α := (Simplified.ofTerm t).term

end Term

end Fluxion
