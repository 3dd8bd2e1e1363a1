import RegexAutomata.Alphabet

/-! Derivations of expressions in which every operator is written. A sum is made of products, a
product of factors, a factor is an atom under any number of stars, and an atom is an operand or a
group. Hence stars bind tightest, and the other operators associate to the left. -/
namespace RegexAutomata.Expression

inductive Rank where
  | sum | product | factor | atom

inductive Derivation : Rank → Type
  | operand (c : Char) : Derivation .atom
  | group (e : Derivation .sum) : Derivation .atom
  | plain (a : Derivation .atom) : Derivation .factor
  | star (f : Derivation .factor) : Derivation .factor
  | single (f : Derivation .factor) : Derivation .product
  | concat (t : Derivation .product) (f : Derivation .factor) : Derivation .product
  | alone (t : Derivation .product) : Derivation .sum
  | union (e : Derivation .sum) (t : Derivation .product) : Derivation .sum

namespace Derivation

def text : {r : Rank} → Derivation r → List Char
  | _, .operand c => [c]
  | _, .group e => '(' :: e.text ++ [')']
  | _, .plain a => a.text
  | _, .star f => f.text ++ ['*']
  | _, .single f => f.text
  | _, .concat t f => t.text ++ '.' :: f.text
  | _, .alone t => t.text
  | _, .union e t => e.text ++ '+' :: t.text

def postOrder : {r : Rank} → Derivation r → List Char
  | _, .operand c => [c]
  | _, .group e => e.postOrder
  | _, .plain a => a.postOrder
  | _, .star f => f.postOrder ++ ['*']
  | _, .single f => f.postOrder
  | _, .concat t f => t.postOrder ++ f.postOrder ++ ['.']
  | _, .alone t => t.postOrder
  | _, .union e t => e.postOrder ++ t.postOrder ++ ['+']

def Over (p : Char → Prop) : {r : Rank} → Derivation r → Prop
  | _, .operand c => p c
  | _, .group e => e.Over p
  | _, .plain a => a.Over p
  | _, .star f => f.Over p
  | _, .single f => f.Over p
  | _, .concat t f => t.Over p ∧ f.Over p
  | _, .alone t => t.Over p
  | _, .union e t => e.Over p ∧ t.Over p

def StarsApart : {r : Rank} → Derivation r → Prop
  | _, .operand _ => True
  | _, .group e => e.StarsApart
  | _, .plain a => a.StarsApart
  | _, .star (.star _) => False
  | _, .star f => f.StarsApart
  | _, .single f => f.StarsApart
  | _, .concat t f => t.StarsApart ∧ f.StarsApart
  | _, .alone t => t.StarsApart
  | _, .union e t => e.StarsApart ∧ t.StarsApart

end Derivation

/-- The expressions over an alphabet that can be converted as they stand. -/
def Sentence (A : Alphabet) (t : List Char) : Prop :=
  ∃ d : Derivation .sum, d.Over (fun c => A.contains c = true) ∧ d.StarsApart ∧ d.text = t

end RegexAutomata.Expression
