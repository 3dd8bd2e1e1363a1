/-! What each character means in an expression: five characters are reserved, of which three are
operators; any other one stands for itself. -/
namespace RegexAutomata

inductive Operator where
  | union | concat | star
deriving DecidableEq

def Operator.strength : Operator → Nat
  | .union => 1
  | .concat => 2
  | .star => 3

def Operator.char : Operator → Char
  | .union => '+'
  | .concat => '.'
  | .star => '*'

def Operator.arity : Operator → Nat
  | .star => 1
  | _ => 2

inductive Role where
  | opening | closing
  | operator (o : Operator)
  | operand
deriving DecidableEq

def role (c : Char) : Role :=
  if c = '(' then .opening
  else if c = ')' then .closing
  else if c = '+' then .operator .union
  else if c = '.' then .operator .concat
  else if c = '*' then .operator .star
  else .operand

/-- The reserved characters, in the order in which they are listed to the user. -/
def reserved : List Char := ['(', ')', '+', '.', '*']

def isReserved (c : Char) : Bool := reserved.contains c

def Role.isOperator : Role → Bool
  | .operator _ => true
  | _ => false

def Role.strength : Role → Nat
  | .operator o => o.strength
  | _ => 0

theorem role_eq_operand_iff {c : Char} : role c = .operand ↔ isReserved c = false := by
  simp only [role, isReserved, reserved]
  grind

theorem role_eq_opening_iff {c : Char} : role c = .opening ↔ c = '(' := by grind [role]

theorem role_eq_closing_iff {c : Char} : role c = .closing ↔ c = ')' := by grind [role]

theorem role_eq_operator_iff {c : Char} {o : Operator} :
    role c = .operator o ↔ c = o.char := by
  cases o <;> grind [role, Operator.char]

theorem isOperator_iff {c : Char} : (role c).isOperator = true ↔ c = '+' ∨ c = '.' ∨ c = '*' := by
  grind [role, Role.isOperator]

@[simp] theorem role_char (o : Operator) : role o.char = .operator o := role_eq_operator_iff.2 rfl

end RegexAutomata
