import RegexAutomata.Nfa.Basic
import RegexAutomata.Text.Line

/-! The listing of a nondeterministic automaton: its ends, then each state with its edges. -/
namespace RegexAutomata
namespace Nfa

def Label.text : Label → List Char
  | .symbol c => [c]
  | .epsilon => ['ε']

namespace Listing

def endText : Option Nat → List Char
  | some id => decimal id
  | none => ['-']

def headLine (s : State) : List Char :=
  "State ".toList ++ decimal s.id ++ (if s.isStart then " (start)".toList else []) ++
    (if s.isFinal then " (final)".toList else [])

def edgeLine (id : Nat) (e : Edge) : List Char :=
  "  ".toList ++ decimal id ++ " --".toList ++ Label.text e.label ++ "--> ".toList ++
    decimal e.target

def stateLines (s : State) : List (List Char) :=
  headLine s ::
    if s.edges.isEmpty then ["  no outgoing edges".toList] else s.edges.map (edgeLine s.id)

end Listing

def listing (m : Nfa) : List Char :=
  unlines (("Start State: ".toList ++ Listing.endText m.start?) ::
    ("Final State: ".toList ++ Listing.endText m.accept?) ::
    [] :: m.states.toList.flatMap Listing.stateLines)

end Nfa
end RegexAutomata
