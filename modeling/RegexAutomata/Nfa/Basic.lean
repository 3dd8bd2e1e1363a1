import RegexAutomata.Keyed

/-! Nondeterministic automata with numbered states. A state id occurs once; edges may lead to ids
that have no state, and the automaton without states has no start state either. -/
namespace RegexAutomata

inductive Label where
  | symbol (c : Char)
  | epsilon
deriving DecidableEq

structure Edge where
  label : Label
  target : Nat
deriving DecidableEq

namespace Nfa

/-- A state with its edges in the order in which they were added. -/
structure State where
  id : Nat
  isStart : Bool
  isFinal : Bool
  edges : List Edge
deriving DecidableEq

def State.targets (s : State) (l : Label) : List Nat :=
  s.edges.filterMap fun e => if e.label = l then some e.target else none

end Nfa

/-- `entry` and `exit` are the ids meant as start and accepting state, present or not. -/
structure Nfa where
  states : Keyed Nfa.State.id
  entry : Nat
  exit : Nat
deriving DecidableEq

namespace Nfa

def empty : Nfa := ⟨.empty, 0, 0⟩

def size (m : Nfa) : Nat := m.states.size

def isEmpty (m : Nfa) : Bool := m.states.isEmpty

def state? (m : Nfa) (id : Nat) : Option State := m.states.find? id

def start? (m : Nfa) : Option Nat := (m.state? m.entry).map State.id

def accept? (m : Nfa) : Option Nat := (m.state? m.exit).map State.id

def isFinal (m : Nfa) (id : Nat) : Bool := (m.state? id).any State.isFinal

def targetsOf (m : Nfa) (l : Label) (id : Nat) : List Nat :=
  match m.state? id with
  | some s => s.targets l
  | none => []

def edgeTargets (m : Nfa) : List Nat :=
  m.states.toList.flatMap fun s => s.edges.map Edge.target

def edgeCount (m : Nfa) : Nat := m.edgeTargets.length

def ids (m : Nfa) : IdSet :=
  .ofList (m.states.toList.flatMap fun s => s.id :: s.edges.map Edge.target)

end Nfa
end RegexAutomata
