import RegexAutomata.Dfa.Basic
import RegexAutomata.Text.Line

/-! A deterministic automaton as a directed graph in the DOT language: states are nodes, final
states doubly circled, and transitions are edges with their symbol as label. -/
namespace RegexAutomata.Dfa
namespace Graph

def labelText (c : Char) : List Char := if c = '"' ∨ c = '\\' then ['\\', c] else [c]

def node (id : Nat) : List Char := 'q' :: decimal id

def nodeLine (s : State) : List Char :=
  "    ".toList ++ node s.id ++ " [shape = ".toList ++
    (if s.isFinal then "doublecircle".toList else "circle".toList) ++ "];".toList

def edgeLine (source : Nat) (c : Char) (target : Nat) : List Char :=
  "    ".toList ++ node source ++ " -> ".toList ++ node target ++ " [label = \"".toList ++
    labelText c ++ "\"];".toList

end Graph

def graph (d : Dfa) : List Char :=
  unlines ("digraph dfa \x7b".toList ::
    "    rankdir = LR;".toList ::
    "    __start [shape = point];".toList ::
    d.states.map Graph.nodeLine ++
    ("    __start -> ".toList ++ Graph.node d.start ++ [';']) ::
    (d.transitions.map fun (source, c, target) => Graph.edgeLine source c target) ++
    ["\x7d".toList])

end RegexAutomata.Dfa
