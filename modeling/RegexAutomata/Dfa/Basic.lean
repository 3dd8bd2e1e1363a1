import RegexAutomata.Keyed

/-! Deterministic automata whose states stand for sets of states of another automaton. The states
are kept in a table, each under its set, and the place of an entry is the number of its state; where
a transition is missing, reading stops. -/
namespace RegexAutomata

namespace Dfa

/-- `row` holds the transitions in ascending order of their symbols. -/
structure State where
  id : Nat
  isStart : Bool
  isFinal : Bool
  origin : IdSet
  row : List (Char × Nat)
deriving DecidableEq

structure Entry where
  key : IdSet
  state : State
deriving DecidableEq

end Dfa

structure Dfa where
  alphabet : List Char
  start : Nat
  entries : List Dfa.Entry
deriving DecidableEq

namespace Dfa

def size (d : Dfa) : Nat := d.entries.length

def isEmpty (d : Dfa) : Bool := d.entries.isEmpty

def states (d : Dfa) : List State := d.entries.map Entry.state

def state? (d : Dfa) (id : Nat) : Option State := d.states[id]?

def originOf? (d : Dfa) (id : Nat) : Option IdSet := (d.entries[id]?).map Entry.key

def standingFor? (d : Dfa) (ids : IdSet) : Option State :=
  (d.entries.find? fun e => decide (e.key = ids)).map Entry.state

def finals (d : Dfa) : List Nat := (d.states.filter State.isFinal).map State.id

def next? (d : Dfa) (id : Nat) (c : Char) : Option Nat :=
  (d.state? id).bind fun s => s.row.lookup c

def transitions (d : Dfa) : List (Nat × Char × Nat) :=
  d.states.flatMap fun s => s.row.map fun (c, target) => (s.id, c, target)

/-- The states passed when reading a word from the state `id` on. The first missing transition is
entered as `none` and ends the trail. -/
def trailFrom (d : Dfa) (id : Nat) : List Char → List (Option Nat)
  | [] => []
  | c :: w =>
    match d.next? id c with
    | some target => some target :: d.trailFrom target w
    | none => [none]

def trail (d : Dfa) (w : List Char) : List (Option Nat) := some d.start :: d.trailFrom d.start w

def readFrom? (d : Dfa) (id : Nat) : List Char → Option Nat
  | [] => some id
  | c :: w => (d.next? id c).bind fun target => d.readFrom? target w

def accepts (d : Dfa) (w : List Char) : Bool :=
  ((d.readFrom? d.start w).bind d.state?).any State.isFinal

@[simp] theorem length_states (d : Dfa) : d.states.length = d.size := List.length_map _

theorem getLast_trailFrom (d : Dfa) (id : Nat) (w : List Char) :
    (some id :: d.trailFrom id w).getLast? = some (d.readFrom? id w) := by
  induction w generalizing id with
  | nil => rfl
  | cons c w ih =>
    cases h : d.next? id c with
    | none => simp [trailFrom, readFrom?, h]
    | some target => simpa [trailFrom, readFrom?, h, List.getLast?_cons_cons] using ih target

theorem getLast_trail (d : Dfa) (w : List Char) :
    (d.trail w).getLast? = some (d.readFrom? d.start w) :=
  d.getLast_trailFrom d.start w

end Dfa
end RegexAutomata
