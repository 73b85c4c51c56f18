import Fluxion.Fault
import Fluxion.Text.Position

/-!
# The wording of faults

For each cause the message, the labels at the places of the fault, and what can be done about it.
-/

namespace Fluxion

/-- A list without the elements that equal the one before them. -/
def withoutRepeats {β : Type} [BEq β] : List β → List β
  | [] => []
  | a :: rest =>
    match withoutRepeats rest with
    | [] => [a]
    | b :: more => if a == b then b :: more else a :: b :: more

namespace Cause

/-- What went wrong. -/
def message : Cause → String
  | mismatch => "an internal non-fatal error occurred while parsing"
  | emptyExpression => "the expression is empty"
  | unexpectedEnd => "unexpected end of expression"
  | expectedEnd => "expected end of expression"
  | unexpectedToken _ _ => "unexpected token"
  | unclosedParenthesis _ => "unclosed parenthesis"
  | emptyParenthesis => "missing expression inside parenthesis"
  | unknownFunction name => s!"unknown function `{name}`"
  | missingArgument name => s!"missing argument for `{name}`"
  | numberTooLarge => "number is too large"
  | unexpectedCharacter lexeme => s!"unexpected character `{lexeme}`"
  | nestedTooDeeply _ => "expression is nested too deeply"
  | variableExponent _ => "exponents must be constant"
  | exponentNotFinite => "exponent is not a finite number"
  | expressionTooDeep _ => "expression is too large"
  | missingExpression => "missing expression"
  | missingVariable => "missing variable"
  | invalidVariable name => s!"`{name}` cannot be used as a variable"
  | invalidOrder raw => s!"`{raw}` is not a valid derivative order"
  | orderTooLarge order _ => s!"derivative order {order} is too large"
  | divisionByZero => "division by zero"
  | resultTooLarge order _ => s!"the derivative of order {order} is too large to compute"

/-- What stands at the places of the fault, one label for each. -/
def labels : Cause → List String
  | mismatch => ["here"]
  | emptyExpression => ["add an expression here"]
  | unexpectedEnd => ["you might need to add another term here"]
  | expectedEnd => ["I could not understand the remaining expression here"]
  | unexpectedToken _ found => [s!"found {found.describe} here"]
  | unclosedParenthesis _ => ["this parenthesis is not closed"]
  | emptyParenthesis => ["add an expression here"]
  | unknownFunction _ => ["this function is not supported"]
  | missingArgument _ => ["this function needs an argument"]
  | numberTooLarge => ["this number cannot be represented"]
  | unexpectedCharacter _ => ["this character is not allowed in an expression"]
  | nestedTooDeeply _ => ["nesting starts going too deep here"]
  | variableExponent name => [s!"`{name}` is not a constant"]
  | exponentNotFinite => ["this exponent evaluates to infinity or an undefined value"]
  | expressionTooDeep _ => ["this part of the expression is nested too deeply"]
  | divisionByZero => ["this divisor is zero"]
  | missingExpression | missingVariable | invalidVariable _ | invalidOrder _ | orderTooLarge _ _
  | resultTooLarge _ _ => []

/-- What can be done about it. -/
def help? : Cause → Option String
  | mismatch => some "this is a bug in the parser"
  | expectedEnd => some "terms must be joined with an operator such as `+`, `-`, `*` or `/`"
  | unexpectedToken expected _ =>
    some ("expected " ++ " or ".intercalate (withoutRepeats (expected.map TokenKind.describe)))
  | unclosedParenthesis true => some "add a closing parenthesis `)` somewhere after this"
  | unclosedParenthesis false => some "add an opening parenthesis `(` somewhere before this"
  | unknownFunction _ =>
    some "the supported functions are: sin (sen), cos, tan (tg), ln, log, exp"
  | missingArgument name => some s!"write the argument in parentheses, such as `{name}(x)`"
  | nestedTooDeeply most => some s!"at most {most} levels of nesting are supported"
  | variableExponent _ =>
    some "only powers with a numeric exponent, such as x^3, can be differentiated"
  | expressionTooDeep most => some s!"expressions can be at most {most} levels deep"
  | missingExpression => some "enter a function to differentiate, such as x^2 + sin(x)"
  | missingVariable => some "enter the variable to differentiate with respect to, such as x"
  | invalidVariable _ =>
    some ("variables start with a letter and may contain only letters, digits and underscores, "
      ++ "and cannot be a function name")
  | invalidOrder _ => some "the order must be a positive integer, such as 1 or 2"
  | orderTooLarge _ most => some s!"at most {most} derivatives can be computed at once"
  | divisionByZero => some "the expression is undefined everywhere, so it has no derivative"
  | resultTooLarge _ most => some s!"results are limited to {most} nodes; try a lower order"
  | emptyExpression | unexpectedEnd | emptyParenthesis | numberTooLarge | unexpectedCharacter _
  | exponentNotFinite => none

end Cause

namespace Fault

/-- The message of the fault, with the offset at which it starts. -/
def text (f : Fault) : String :=
  match f.position? with
  | some n => s!"{f.cause.message} at position {n}"
  | none => f.cause.message

/-- The line and the column at which a report on the expression shows the fault. The report takes
the offset of the fault for a number of characters. -/
def location? (f : Fault) (expression : String) : Option String :=
  f.position?.map fun n => Text.Position.text (Text.Position.of? expression.toList n)

end Fault

end Fluxion
