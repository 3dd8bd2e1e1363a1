import RegexAutomata.Role

/-! Postfix form: operands come in front of their operators, and no parentheses are needed.
Malformed expressions are rearranged as well, so that an unmatched opening one may stay. -/
namespace RegexAutomata.Postfix

/-- The postfix form of the rest of an expression, with a stack of the characters that wait for
their right operand or for the end of their group, innermost first. -/
def arrange : List Char → List Char → List Char
  | stack, [] => stack
  | stack, c :: t =>
    match role c with
    | .opening => arrange (c :: stack) t
    | .closing =>
      stack.takeWhile (· != '(') ++ arrange (stack.dropWhile (· != '(')).tail t
    | .operator o =>
      let binds := fun top => decide (o.strength ≤ (role top).strength)
      stack.takeWhile binds ++ arrange (c :: stack.dropWhile binds) t
    | .operand => c :: arrange stack t

def ofExpression (t : List Char) : List Char := arrange [] t

end RegexAutomata.Postfix
