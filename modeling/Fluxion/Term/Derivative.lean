import Fluxion.Term.Canonical

/-!
# Derivatives

The rule that differentiates a term is chosen by the shape of the term. The derivative is built as
the rule says, and simplified and put in canonical order afterwards.
-/

namespace Fluxion

/-- The rules of differentiation. -/
inductive Rule where
  | constant
  /-- For the variable itself. -/
  | symbol
  | sum
  | difference
  | product
  | quotient
  /-- For powers of the variable. -/
  | power
  /-- For powers of anything else. -/
  | generalPower
  | sin
  | cos
  | tan
  | ln
  | log
  | exp
  deriving DecidableEq, Repr, Inhabited

namespace Rule

/-- The rule for a function. -/
def ofFunc : Func → Rule
  | .sin => sin
  | .cos => cos
  | .tan => tan
  | .ln => ln
  | .log => log
  | .exp => exp

/-- The rule that differentiates a term with respect to a variable. -/
def of {α : Type} (var : String) : Term α → Rule
  | .const _ => constant
  | .symbol name => if name == var then symbol else constant
  | .sum _ _ => sum
  | .difference _ _ => difference
  | .product _ _ => product
  | .quotient _ _ => quotient
  | .power base _ => if base.isSymbol var then power else generalPower
  | .call f _ => ofFunc f

/-- What the rule is called. -/
def name : Rule → String
  | constant => "constant rule"
  | symbol => "variable rule"
  | sum => "sum rule"
  | difference => "difference rule"
  | product => "product rule"
  | quotient => "quotient rule"
  | power => "power rule"
  | generalPower => "generalized power rule"
  | sin => "sine rule"
  | cos => "cosine rule"
  | tan => "tangent rule"
  | ln => "natural logarithm rule"
  | log => "logarithm rule"
  | exp => "exponential rule"

/-- What the rule says, for a variable. -/
def formula (var : String) : Rule → String
  | constant => s!"d/d{var}(c) = 0"
  | symbol => s!"d/d{var}({var}) = 1"
  | sum => "(f + g)' = f' + g'"
  | difference => "(f - g)' = f' - g'"
  | product => "(f*g)' = f'*g + f*g'"
  | quotient => "(f/g)' = (f'*g - f*g')/g^2"
  | power => s!"d/d{var}({var}^n) = n*{var}^(n-1)"
  | generalPower => s!"d/d{var}(u^n) = n*u^(n-1)*u'"
  | sin => s!"d/d{var}(sin(u)) = cos(u)*u'"
  | cos => s!"d/d{var}(cos(u)) = -sin(u)*u'"
  | tan => s!"d/d{var}(tan(u)) = (1/cos(u))^2*u'"
  | ln => s!"d/d{var}(ln(u)) = u'/u"
  | log => s!"d/d{var}(log(u)) = u'/(u*ln(10))"
  | exp => s!"d/d{var}(exp(u)) = exp(u)*u'"

/-- Whether the rule puts the derivatives of two operands together. -/
def isBinary : Rule → Bool
  | sum | difference | product | quotient => true
  | _ => false

end Rule

namespace Term

variable {α : Type} [Scalar α]

/-- The derivative of a function, at an argument. -/
def outerDerivative (f : Func) (arg : Term α) : Term α :=
  match f with
  | .sin => call .cos arg
  | .cos => product (const (-1)) (call .sin arg)
  | .tan => power (quotient (const 1) (call .cos arg)) Scalar.two
  | .ln => quotient (const 1) arg
  | .log => quotient (const 1) (product arg (const Scalar.lnTen))
  | .exp => call .exp arg

/-- The derivative of a power with respect to its base. -/
def powerDerivative (base : Term α) (e : α) : Term α :=
  product (const e) (power base (e - 1))

/-- The derivative of a term with respect to a variable, as the rules build it. -/
def derivative (var : String) : Term α → Term α
  | const _ => const 0
  | symbol name => const (if name == var then 1 else 0)
  | sum l r => sum (l.derivative var) (r.derivative var)
  | difference l r => difference (l.derivative var) (r.derivative var)
  | product l r => sum (product (l.derivative var) r) (product l (r.derivative var))
  | quotient l r =>
    quotient (difference (product (l.derivative var) r) (product l (r.derivative var)))
      (power r Scalar.two)
  | power base e =>
    if base.isSymbol var then
      powerDerivative base e
    else
      product (powerDerivative base e) (base.derivative var)
  | call f arg => product (outerDerivative f arg) (arg.derivative var)

/-- The derivative of a term with respect to a variable, simplified and in canonical order. -/
def derive (var : String) (t : Term α) : Term α :=
  (t.derivative var).simplify.canonicalize var

/-- The first `n` derivatives of a term, each taken from the one before it. -/
def derivatives (var : String) (t : Term α) : Nat → List (Term α)
  | 0 => []
  | n + 1 =>
    let d := t.derive var
    d :: d.derivatives var n

end Term

end Fluxion
