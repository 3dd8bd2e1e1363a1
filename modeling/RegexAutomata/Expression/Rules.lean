import RegexAutomata.Expression.Fault

/-! The rules for expressions, stated over the whole text. A breach is a character that breaks one
of them. Of all breaches the first one is to be reported, and a group left open only without any. -/
namespace RegexAutomata.Expression

/-- `Breach A u c v f` says that the character `c`, between `u` and `v`, breaks the rule of which
the fault `f` tells. -/
inductive Breach (A : Alphabet) (u : List Char) (c : Char) (v : List Char) : Fault → Prop
  | invalidCharacter :
      A.contains c = false → isReserved c = false → Breach A u c v (.invalidCharacter c u.length)
  | unmatchedClose :
      c = ')' → u.count '(' ≤ u.count ')' → Breach A u c v (.unmatchedClose u.length)
  | operatorAfter {b : Char} :
      (role c).isOperator = true → u.getLast? = some b → b ∈ ['(', '+', '.'] →
        Breach A u c v (.operatorAfter b c u.length)
  | stackedStar : c = '*' → u.getLast? = some '*' → Breach A u c v (.stackedStar u.length)
  | leadingOperator : (role c).isOperator = true → u = [] → Breach A u c v (.leadingOperator c)
  | trailingOperator : (c = '+' ∨ c = '.') → v = [] → Breach A u c v (.trailingOperator c)

def Fault.rank : Fault → Nat
  | .invalidCharacter _ _ => 0
  | .unmatchedClose _ => 1
  | .operatorAfter _ _ _ => 2
  | .stackedStar _ => 3
  | .leadingOperator _ => 4
  | .trailingOperator _ => 5
  | _ => 6

def Unbroken (A : Alphabet) (t : List Char) : Prop :=
  ∀ u c v f, t = u ++ c :: v → ¬ Breach A u c v f

/-- What is to be reported: that the text is empty, or the first rule that is broken by the first
character that breaks any, or how many groups are left open. -/
inductive FirstFailure (A : Alphabet) (t : List Char) : Fault → Prop
  | empty : t = [] → FirstFailure A t .empty
  | breach {u v : List Char} {c : Char} {f : Fault} :
      t = u ++ c :: v → Breach A u c v f → (∀ g, Breach A u c v g → f.rank ≤ g.rank) →
        (∀ x d y g, t = x ++ d :: y → Breach A x d y g → u.length ≤ x.length) → FirstFailure A t f
  | leftOpen :
      Unbroken A t → t.count ')' < t.count '(' →
        FirstFailure A t (.unclosedOpen (t.count '(' - t.count ')'))

structure Faultless (A : Alphabet) (t : List Char) : Prop where
  nonempty : t ≠ []
  allowed : ∀ c ∈ t, A.contains c = true ∨ isReserved c = true
  nested : ∀ u, u <+: t → u.count ')' ≤ u.count '('
  closed : t.count '(' = t.count ')'
  supplied : ∀ b c, [b, c] <:+: t → (role c).isOperator = true → b ∉ ['(', '+', '.']
  single : ¬ ['*', '*'] <:+: t
  first : ∀ c ∈ t.head?, (role c).isOperator = false
  last : ∀ c ∈ t.getLast?, ¬ (c = '+' ∨ c = '.')

end RegexAutomata.Expression
