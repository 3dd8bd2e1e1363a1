import RegexAutomata.Alphabet

/-! The faults of an expression, found from left to right. At one place the rules are tried in a
fixed order; a group left open is reported only when no place is at fault. -/
namespace RegexAutomata

inductive ErrorKind where
  | alphabet
  | emptyExpression
  | invalidCharacter
  | unbalancedParentheses
  | malformedOperatorAdjacency
  | malformedPostfix
  | emptyAutomaton
deriving DecidableEq

namespace Expression

inductive Fault where
  | empty
  | invalidCharacter (c : Char) (position : Nat)
  | unmatchedClose (position : Nat)
  | unclosedOpen (count : Nat)
  | operatorAfter (before op : Char) (position : Nat)
  | stackedStar (position : Nat)
  | leadingOperator (op : Char)
  | trailingOperator (op : Char)
deriving DecidableEq

def Fault.kind : Fault → ErrorKind
  | .empty => .emptyExpression
  | .invalidCharacter .. => .invalidCharacter
  | .unmatchedClose _ | .unclosedOpen _ => .unbalancedParentheses
  | .operatorAfter .. | .stackedStar _ | .leadingOperator _ | .trailingOperator _ =>
    .malformedOperatorAdjacency

def Fault.message : Fault → String
  | .empty => "expression is empty"
  | .invalidCharacter c p => s!"invalid character '{c}' at position {p}"
  | .unmatchedClose p =>
    s!"unbalanced parentheses: more closing brackets, unmatched ')' at position {p}"
  | .unclosedOpen n => s!"unbalanced parentheses: more opening brackets, {n} '(' left unclosed"
  | .operatorAfter b o p => s!"operator '{o}' cannot follow '{b}' at position {p}"
  | .stackedStar p => s!"'*' cannot follow '*' at position {p}"
  | .leadingOperator o => s!"operator '{o}' cannot be at the start"
  | .trailingOperator o => s!"operator '{o}' cannot be at the end"

/-- A place of an expression. `depth` counts the groups that are open in front of it. -/
structure Place where
  position : Nat
  depth : Nat
  before : Option Char
  char : Char
  isLast : Bool

namespace Place

def awaitsOperand (p : Place) : Option Char :=
  p.before.filter fun b => b == '+' || b == '.' || b == '('

def fault? (A : Alphabet) (p : Place) : Option Fault :=
  if A.allows p.char = false then some (.invalidCharacter p.char p.position)
  else if p.char = ')' ∧ p.depth = 0 then some (.unmatchedClose p.position)
  else match (role p.char).isOperator, p.awaitsOperand with
    | true, some b => some (.operatorAfter b p.char p.position)
    | true, none =>
      if p.char = '*' ∧ p.before = some '*' then some (.stackedStar p.position)
      else if p.position = 0 then some (.leadingOperator p.char)
      else if p.isLast = true ∧ p.char ≠ '*' then some (.trailingOperator p.char)
      else none
    | false, _ => none

def depthAfter (p : Place) : Nat :=
  if p.char = '(' then p.depth + 1 else if p.char = ')' then p.depth - 1 else p.depth

end Place

def faultFrom? (A : Alphabet) (position depth : Nat) (before : Option Char) :
    List Char → Option Fault
  | [] => if depth = 0 then none else some (.unclosedOpen depth)
  | c :: t =>
    let place : Place := ⟨position, depth, before, c, t.isEmpty⟩
    (place.fault? A).or (faultFrom? A (position + 1) place.depthAfter (some c) t)

def fault? (A : Alphabet) : List Char → Option Fault
  | [] => some .empty
  | t => faultFrom? A 0 0 none t

end Expression
end RegexAutomata
