import RegexAutomata.Expression.Tree
import RegexAutomata.Proofs.Postfix.Arrangement

/-! The postfix form of the text of a derivation is the post-order of its tree, and a tree can be
read off its post-order. So parentheses are lost exactly where they change nothing. -/
namespace RegexAutomata.Expression

namespace Tree
variable {t t' : Tree} {u u' : List Char}

def operator? : Tree → Option Operator
  | .operand _ => none
  | .star _ => some .star
  | .concat _ _ => some .concat
  | .union _ _ => some .union

def top : Tree → Char
  | .operand c => c
  | .star _ => '*'
  | .concat _ _ => '.'
  | .union _ _ => '+'

def front : Tree → List Char
  | .operand _ => []
  | .star t => t.postOrder
  | .concat l r => l.postOrder ++ r.postOrder
  | .union l r => l.postOrder ++ r.postOrder

theorem front_append_top (t : Tree) : t.front ++ [t.top] = t.postOrder := by cases t <;> rfl

theorem role_top (h : t.Over fun c => role c = .operand) :
    role t.top = t.operator?.elim .operand .operator := by
  cases t with
  | operand c => exact h
  | star | concat | union => rfl

/-- The end of a post-order shows what the root is. -/
theorem root_eq_of_append_postOrder (ht : t.Over fun c => role c = .operand)
    (ht' : t'.Over fun c => role c = .operand) (h : u ++ t.postOrder = u' ++ t'.postOrder) :
    t.operator? = t'.operator? ∧ t.top = t'.top ∧ u ++ t.front = u' ++ t'.front := by
  rw [← front_append_top, ← front_append_top, ← List.append_assoc, ← List.append_assoc] at h
  obtain ⟨hfront, htop⟩ := List.append_inj' h rfl
  obtain htop : t.top = t'.top := List.singleton_inj.1 htop
  have hrole := congrArg role htop
  rw [role_top ht, role_top ht'] at hrole
  refine ⟨?_, htop, hfront⟩
  cases ho : t.operator? <;> cases ho' : t'.operator? <;> simp_all

/-- Behind any text a tree is read off its post-order, from the end on. -/
theorem append_postOrder_inj (ht : t.Over fun c => role c = .operand)
    (ht' : t'.Over fun c => role c = .operand) (h : u ++ t.postOrder = u' ++ t'.postOrder) :
    u = u' ∧ t = t' := by
  induction t generalizing t' u u' with
  | operand c =>
    obtain ⟨hroot, htop, hfront⟩ := root_eq_of_append_postOrder ht ht' h
    cases t' with
    | operand c' => exact ⟨by simpa [front] using hfront, congrArg Tree.operand htop⟩
    | star | concat | union => cases hroot
  | star t ih =>
    obtain ⟨hroot, htop, hfront⟩ := root_eq_of_append_postOrder ht ht' h
    cases t' with
    | star t' =>
      obtain ⟨hu, rfl⟩ := ih ht (show t'.Over _ from ht') hfront
      exact ⟨hu, rfl⟩
    | operand | concat | union => cases hroot
  | concat l r ihl ihr =>
    obtain ⟨hroot, htop, hfront⟩ := root_eq_of_append_postOrder ht ht' h
    cases t' with
    | concat l' r' =>
      simp only [front, ← List.append_assoc] at hfront
      obtain ⟨hl, rfl⟩ := ihr ht.2 ht'.2 hfront
      obtain ⟨hu, rfl⟩ := ihl ht.1 ht'.1 hl
      exact ⟨hu, rfl⟩
    | operand | star | union => cases hroot
  | union l r ihl ihr =>
    obtain ⟨hroot, htop, hfront⟩ := root_eq_of_append_postOrder ht ht' h
    cases t' with
    | union l' r' =>
      simp only [front, ← List.append_assoc] at hfront
      obtain ⟨hl, rfl⟩ := ihr ht.2 ht'.2 hfront
      obtain ⟨hu, rfl⟩ := ihl ht.1 ht'.1 hl
      exact ⟨hu, rfl⟩
    | operand | star | concat => cases hroot

theorem postOrder_inj (ht : t.Over fun c => role c = .operand)
    (ht' : t'.Over fun c => role c = .operand) : t.postOrder = t'.postOrder ↔ t = t' := by
  constructor
  · intro h
    have hempty : [] ++ t.postOrder = [] ++ t'.postOrder := h
    exact (append_postOrder_inj ht ht' hempty).2
  · exact fun h => congrArg postOrder h

end Tree

namespace Derivation

theorem postOrder_tree : ∀ {r : Rank} (d : Derivation r), d.tree.postOrder = d.postOrder
  | _, .operand _ => rfl
  | _, .group e => e.postOrder_tree
  | _, .plain a => a.postOrder_tree
  | _, .star f => by rw [tree, Tree.postOrder, postOrder, f.postOrder_tree]
  | _, .single f => f.postOrder_tree
  | _, .concat t f => by
    rw [tree, Tree.postOrder, postOrder, t.postOrder_tree, f.postOrder_tree]
  | _, .alone t => t.postOrder_tree
  | _, .union e t => by
    rw [tree, Tree.postOrder, postOrder, e.postOrder_tree, t.postOrder_tree]

theorem over_tree {p : Char → Prop} : ∀ {r : Rank} (d : Derivation r), d.tree.Over p ↔ d.Over p
  | _, .operand _ => Iff.rfl
  | _, .group e => e.over_tree
  | _, .plain a => a.over_tree
  | _, .star f => f.over_tree
  | _, .single f => f.over_tree
  | _, .concat t f => and_congr t.over_tree f.over_tree
  | _, .alone t => t.over_tree
  | _, .union e t => and_congr e.over_tree t.over_tree

/-- The postfix form of a text is the post-order of the tree of its derivation, and two texts have
one postfix form exactly if their derivations have one tree: what parentheses change, the postfix
form keeps, and the others leave no trace. -/
theorem ofExpression_text_tree {r : Rank} (d : Derivation r)
    (hd : d.Over fun c => isReserved c = false) :
    Postfix.ofExpression d.text = d.postOrder ∧
    Postfix.ofExpression d.text = d.tree.postOrder ∧
    ∀ {r' : Rank} (d' : Derivation r'), (d'.Over fun c => isReserved c = false) →
      (Postfix.ofExpression d.text = Postfix.ofExpression d'.text ↔ d.tree = d'.tree) := by
  simp only [← role_eq_operand_iff] at hd ⊢
  rw [d.postOrder_tree]
  refine ⟨d.ofExpression_text hd, d.ofExpression_text hd, fun d' hd' => ?_⟩
  rw [d.ofExpression_text hd, d'.ofExpression_text hd', ← d.postOrder_tree, ← d'.postOrder_tree]
  exact Tree.postOrder_inj (d.over_tree.2 hd) (d'.over_tree.2 hd')

def tripleProduct : Derivation .product :=
  .concat (.concat (.single (.plain (.operand 'a'))) (.plain (.operand 'b')))
    (.star (.star (.plain (.operand 'c'))))

def groupedProduct : Derivation .product :=
  .concat (.single (.plain (.group (.alone (.concat (.single (.plain (.operand 'a')))
    (.plain (.operand 'b'))))))) (.star (.star (.plain (.operand 'c'))))

/-- The parentheses around the first factors of a product leave no trace. -/
theorem ofExpression_text_tree_grouped :
    (groupedProduct.Over fun c => isReserved c = false) ∧
    (tripleProduct.Over fun c => isReserved c = false) ∧
    Postfix.ofExpression ['(', 'a', '.', 'b', ')', '.', 'c', '*', '*'] =
      ['a', 'b', '.', 'c', '*', '*', '.'] ∧
    Postfix.ofExpression ['(', 'a', '.', 'b', ')', '.', 'c', '*', '*'] =
      Postfix.ofExpression ['a', '.', 'b', '.', 'c', '*', '*'] := by
  have ha : isReserved 'a' = false := by decide
  have hb : isReserved 'b' = false := by decide
  have hc : isReserved 'c' = false := by decide
  have hgrouped : groupedProduct.Over fun c => isReserved c = false := ⟨⟨ha, hb⟩, hc⟩
  have htriple : tripleProduct.Over fun c => isReserved c = false := ⟨⟨ha, hb⟩, hc⟩
  obtain ⟨hpostOrder, _, hsame⟩ := groupedProduct.ofExpression_text_tree hgrouped
  exact ⟨hgrouped, htriple, hpostOrder, (hsame tripleProduct htriple).2 rfl⟩

end Derivation
end RegexAutomata.Expression
