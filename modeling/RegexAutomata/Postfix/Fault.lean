import RegexAutomata.Role

/-! Whether a postfix form comes down to one operand: an operand adds one to the stack, a star
needs one, and the other operators need two and leave one. -/
namespace RegexAutomata.Postfix

inductive Fault where
  | missingOperand (op : Char) (position : Nat)
  | noOperands
  | unjoinedOperands (count : Nat)
  | unexpectedSymbol (c : Char) (position : Nat)
deriving DecidableEq

def Fault.message : Fault → String
  | .missingOperand o p => s!"'{o}' at position {p} is missing an operand"
  | .noOperands => "no operands"
  | .unjoinedOperands n => s!"{n} operands are left without an operator joining them"
  | .unexpectedSymbol c p => s!"unexpected '{c}' at position {p}"

def depthAfter (position depth : Nat) (c : Char) : Except Fault Nat :=
  match role c with
  | .operand => .ok (depth + 1)
  | .operator o =>
    if depth < o.arity then .error (.missingOperand c position)
    else .ok (depth - o.arity + 1)
  | _ => .error (.unexpectedSymbol c position)

def depthFrom (position depth : Nat) : List Char → Except Fault Nat
  | [] => .ok depth
  | c :: t =>
    match depthAfter position depth c with
    | .ok d => depthFrom (position + 1) d t
    | .error f => .error f

def leftover? : Nat → Option Fault
  | 0 => some .noOperands
  | 1 => none
  | n => some (.unjoinedOperands n)

def fault? (t : List Char) : Option Fault :=
  match depthFrom 0 0 t with
  | .ok d => leftover? d
  | .error f => some f

end RegexAutomata.Postfix
