import RegexAutomata.Alphabet

/-! The explicit form of an expression: a dot is written wherever two operands stand side by side.
Each pair of neighbours is judged on its own, so a dot that was put in decides nothing further. -/
namespace RegexAutomata.Expression

/-- An operand ends at `p` and another begins at `c`. A group right after a star is not joined. -/
def joined (A : Alphabet) (p c : Char) : Bool :=
  ((A.contains p || p == ')') && (A.contains c || c == '(')) || (p == '*' && A.contains c)

def explicit (A : Alphabet) : List Char → List Char
  | [] => []
  | [c] => [c]
  | p :: c :: t =>
    if joined A p c then p :: '.' :: explicit A (c :: t) else p :: explicit A (c :: t)

end RegexAutomata.Expression
