import Fluxion.Scalar

/-!
# Terms

A term is an expression without its layout: no spans and no parentheses, its shape alone says what
belongs together. Exponents are numbers. Terms are what is simplified and differentiated.
-/

namespace Fluxion

/-- A term with numbers of type `α`. -/
inductive Term (α : Type) where
  | const (value : α)
  | symbol (name : String)
  | sum (left right : Term α)
  | difference (left right : Term α)
  | product (left right : Term α)
  | quotient (left right : Term α)
  | power (base : Term α) (exponent : α)
  | call (func : Func) (arg : Term α)
  deriving Repr, Inhabited

namespace Term

variable {α : Type}

/-- Whether two terms have the same shape, with equal numbers and names in the same places. -/
def beq [BEq α] : Term α → Term α → Bool
  | const v, const w => v == w
  | symbol a, symbol b => a == b
  | sum l r, sum l' r' => beq l l' && beq r r'
  | difference l r, difference l' r' => beq l l' && beq r r'
  | product l r, product l' r' => beq l l' && beq r r'
  | quotient l r, quotient l' r' => beq l l' && beq r r'
  | power b e, power b' e' => beq b b' && e == e'
  | call f a, call g b => f == g && beq a b
  | _, _ => false

instance [BEq α] : BEq (Term α) := ⟨beq⟩

/-- The value of a constant. -/
def value? : Term α → Option α
  | const v => some v
  | _ => none

/-- Whether the term is a constant. -/
def isConst : Term α → Bool
  | const _ => true
  | _ => false

/-- Whether the term is the constant `v`. -/
def isValue [BEq α] (v : α) : Term α → Bool
  | const w => w == v
  | _ => false

/-- Whether the term is the symbol `name`. -/
def isSymbol (name : String) : Term α → Bool
  | symbol s => s == name
  | _ => false

/-- Whether the term is a sum or a difference. -/
def isAdditive : Term α → Bool
  | sum _ _ | difference _ _ => true
  | _ => false

/-- Whether the term is a symbol or a power of one. -/
def isSymbolPower : Term α → Bool
  | symbol _ | power (symbol _) _ => true
  | _ => false

/-- Whether the term is a constant, a symbol, a power of a symbol, or one of the last two with a
coefficient. The derivative of such a term can be told in one line. -/
def isMonomial : Term α → Bool
  | const _ => true
  | product (const _) right => right.isSymbolPower
  | t => t.isSymbolPower

/-- The number of nodes on the longest path from the root to a leaf. -/
def depth : Term α → Nat
  | const _ | symbol _ => 1
  | sum l r | difference l r | product l r | quotient l r => 1 + max l.depth r.depth
  | power b _ => 1 + b.depth
  | call _ a => 1 + a.depth

/-- The number of nodes. -/
def size : Term α → Nat
  | const _ | symbol _ => 1
  | sum l r | difference l r | product l r | quotient l r => 1 + l.size + r.size
  | power b _ => 1 + b.size
  | call _ a => 1 + a.size

/-- Whether a quotient anywhere in the term has the constant zero as its divisor. -/
def dividesByZero [Scalar α] : Term α → Bool
  | const _ | symbol _ => false
  | quotient l r => r.isValue 0 || l.dividesByZero || r.dividesByZero
  | sum l r | difference l r | product l r => l.dividesByZero || r.dividesByZero
  | power b _ => b.dividesByZero
  | call _ a => a.dividesByZero

/-- Every term has a node. -/
theorem size_pos (t : Term α) : 0 < t.size := by
  cases t <;> grind [size]

end Term

end Fluxion
