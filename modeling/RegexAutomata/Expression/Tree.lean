import RegexAutomata.Expression.Derivation

/-! Trees of expressions: what is left of a derivation when groups and ranks are forgotten. Two
derivations with one tree differ in parentheses that change nothing. -/
namespace RegexAutomata.Expression

inductive Tree where
  | operand (c : Char)
  | star (t : Tree)
  | concat (l r : Tree)
  | union (l r : Tree)
deriving DecidableEq

namespace Tree

def postOrder : Tree → List Char
  | .operand c => [c]
  | .star t => t.postOrder ++ ['*']
  | .concat l r => l.postOrder ++ r.postOrder ++ ['.']
  | .union l r => l.postOrder ++ r.postOrder ++ ['+']

def Over (p : Char → Prop) : Tree → Prop
  | .operand c => p c
  | .star t => t.Over p
  | .concat l r => l.Over p ∧ r.Over p
  | .union l r => l.Over p ∧ r.Over p

end Tree

def Derivation.tree : {r : Rank} → Derivation r → Tree
  | _, .operand c => .operand c
  | _, .group e => e.tree
  | _, .plain a => a.tree
  | _, .star f => .star f.tree
  | _, .single f => f.tree
  | _, .concat t f => .concat t.tree f.tree
  | _, .alone t => t.tree
  | _, .union e t => .union e.tree t.tree

end RegexAutomata.Expression
