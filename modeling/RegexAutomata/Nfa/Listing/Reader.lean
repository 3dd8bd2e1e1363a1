import Mathlib.Data.List.Basic
import RegexAutomata.Nfa.Listing

/-! Reading a listing back, line by line. Between the dashes of an edge line stands one character:
an epsilon there is taken for an epsilon edge, anything else for a symbol. -/
namespace RegexAutomata

def Label.ofChar (c : Char) : Label := if c = 'ε' then .epsilon else .symbol c

def Label.blurred : Label → Label
  | .symbol c => .ofChar c
  | .epsilon => .epsilon

def Edge.blurred (e : Edge) : Edge := ⟨e.label.blurred, e.target⟩

namespace Nfa
namespace Listing

def mark (m t : List Char) : Bool × List Char :=
  match t.dropPrefix? m with
  | some rest => (true, rest)
  | none => (false, t)

def endId? (title line : List Char) : Option Nat := do
  let rest ← line.dropPrefix? title
  let (id, rest) ← number? rest
  if rest.isEmpty then some id else none

def head? (line : List Char) : Option State := do
  let rest ← line.dropPrefix? "State ".toList
  let (id, rest) ← number? rest
  let (isStart, rest) := mark " (start)".toList rest
  let (isFinal, rest) := mark " (final)".toList rest
  if rest.isEmpty then some ⟨id, isStart, isFinal, []⟩ else none

def arrow? (line : List Char) : Option (Nat × Char × Nat) := do
  let rest ← line.dropPrefix? "  ".toList
  let (source, rest) ← number? rest
  let rest ← rest.dropPrefix? " --".toList
  let shown ← rest.head?
  let rest ← rest.tail.dropPrefix? "--> ".toList
  let (target, rest) ← number? rest
  if rest.isEmpty then some (source, shown, target) else none

/-- The arrows in front of the first head line, and the states from there on. The arrows behind a
head line have to leave its state. -/
def gather? : List (List Char) → Option (List (Nat × Char × Nat) × List State)
  | [] => some ([], [])
  | line :: rest => do
    let (arrows, states) ← gather? rest
    match head? line, arrow? line with
    | some s, _ =>
      if arrows.all fun a => a.1 == s.id then
        some ([], { s with edges := arrows.map fun a => ⟨.ofChar a.2.1, a.2.2⟩ } :: states)
      else none
    | none, some a => some (a :: arrows, states)
    | none, none =>
      if line = "  no outgoing edges".toList ∧ arrows.isEmpty then some ([], states) else none

def states? (body : List (List Char)) : Option (List State) := do
  let (arrows, states) ← gather? body
  if arrows.isEmpty then some states else none

end Listing

def ofListing? (t : List Char) : Option Nfa :=
  match lines t with
  | first :: second :: [] :: body => do
    let entry ← Listing.endId? "Start State: ".toList first
    let exit ← Listing.endId? "Final State: ".toList second
    let states ← Listing.states? body
    some ⟨.ofList states, entry, exit⟩
  | _ => none

def State.blurred (s : State) : State := { s with edges := s.edges.map Edge.blurred }

def blurred (m : Nfa) : Nfa where
  states := ⟨m.states.toList.map State.blurred, by
    simpa [List.pairwise_map, State.blurred] using m.states.ascending⟩
  entry := m.entry
  exit := m.exit

end Nfa
end RegexAutomata
