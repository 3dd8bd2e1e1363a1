import Mathlib.Data.List.Basic
import RegexAutomata.Dfa.Graph

/-! Reading a graph back, line by line. Each kind of line has its own reader, and none of them reads a
line of another kind. -/
namespace RegexAutomata.Dfa.Graph

def nodeBehind? (title t : List Char) : Option (Nat × List Char) := do
  let rest ← t.dropPrefix? title
  let rest ← rest.dropPrefix? ['q']
  number? rest

/-- The text up to the closing quote, and what stands behind it, when the opening quote has been read.
A backslash is left out, and the character behind it is taken as it is. -/
def unquote? : List Char → Option (List Char × List Char)
  | [] => none
  | '"' :: t => some ([], t)
  | '\\' :: c :: t => (unquote? t).map fun (text, rest) => (c :: text, rest)
  | c :: t => (unquote? t).map fun (text, rest) => (c :: text, rest)

def mark? (line : List Char) : Option (Nat × Bool) := do
  let (id, rest) ← nodeBehind? "    ".toList line
  if rest = " [shape = doublecircle];".toList then some (id, true)
  else if rest = " [shape = circle];".toList then some (id, false)
  else none

def start? (line : List Char) : Option Nat := do
  let (id, rest) ← nodeBehind? "    __start -> ".toList line
  if rest = [';'] then some id else none

def arrow? (line : List Char) : Option (Nat × Nat × List Char × List Char) := do
  let (source, rest) ← nodeBehind? "    ".toList line
  let (target, rest) ← nodeBehind? " -> ".toList rest
  let rest ← rest.dropPrefix? " [label = \"".toList
  let (label, rest) ← unquote? rest
  some (source, target, label, rest)

end RegexAutomata.Dfa.Graph
