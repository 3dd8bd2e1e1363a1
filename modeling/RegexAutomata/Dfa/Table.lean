import RegexAutomata.Dfa.Basic
import RegexAutomata.Text.Line

/-! The transition table of a deterministic automaton: one line for each state and one column of
fixed width for each symbol, in the order of the alphabet. -/
namespace RegexAutomata.Dfa
namespace Table

def width : Nat := 7

def cell (t : List Char) : List Char := t.leftpad width ' ' ++ [' ', '|']

def line (first : List Char) (others : List (List Char)) : List Char :=
  cell first ++ others.flatMap fun t => ' ' :: cell t

def rule (columns : Nat) : List Char :=
  List.replicate (width + 1) '-' ++ ['+'] ++
    (List.replicate columns (List.replicate (width + 2) '-' ++ ['+'])).flatten

def stateLabel (s : State) : List Char :=
  if s.isFinal then '*' :: decimal s.id else decimal s.id

def entry : Option Nat → List Char
  | some target => decimal target
  | none => ['-']

def stateLine (d : Dfa) (s : State) : List Char :=
  line (stateLabel s) (d.alphabet.map fun c => entry (d.next? s.id c))

end Table

def table (d : Dfa) : List Char :=
  unlines (("Start State: ".toList ++ decimal d.start) ::
    ("Final States: \x7b ".toList ++ List.intercalate [',', ' '] (d.finals.map decimal) ++
      " \x7d".toList) ::
    [] ::
    Table.line "State".toList (d.alphabet.map fun c => [c]) ::
    Table.rule d.alphabet.length ::
    d.states.map (Table.stateLine d) ++
    [[], "(* denotes final state)".toList])

end RegexAutomata.Dfa
