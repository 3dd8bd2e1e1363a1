import RegexAutomata.Nfa.Basic

/-! Sets of states under reading: one step along a symbol, and the closure under epsilon edges.
Ids without a state are kept in a set, and no edge leaves them. -/
namespace RegexAutomata.Nfa

def targets (m : Nfa) (l : Label) (ids : IdSet) : IdSet :=
  .ofList (ids.toList.flatMap (m.targetsOf l))

def advance (m : Nfa) (ids : IdSet) (c : Char) : IdSet := m.targets (.symbol c) ids

def spread (m : Nfa) : Nat → IdSet → IdSet → IdSet
  | 0, _, seen => seen
  | rounds + 1, front, seen =>
    let next := (m.targets .epsilon front).filter (fun id => decide (id ∉ seen))
    if next.isEmpty then seen else m.spread rounds next (seen.union next)

/-- Every round but the last meets the target of an edge for the first time, so that there are at
most as many of them as edges. -/
def epsilonClosure (m : Nfa) (ids : IdSet) : IdSet := m.spread m.edgeCount ids ids

def read (m : Nfa) (ids : IdSet) (c : Char) : IdSet := m.epsilonClosure (m.advance ids c)

def successor? (m : Nfa) (ids : IdSet) (c : Char) : Option IdSet :=
  if (m.advance ids c).isEmpty then none else some (m.read ids c)

end RegexAutomata.Nfa
