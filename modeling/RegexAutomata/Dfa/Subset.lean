import RegexAutomata.Dfa.Basic
import RegexAutomata.Log
import RegexAutomata.Nfa.Reach

/-! The subset construction as a loop over a queue, with the symbols in ascending order. A subset that
is met for the first time gets the next number, a blank state under its own key, and a place at the
end of the queue; a round takes the number at the front of the queue and fills in its state. -/
namespace RegexAutomata.Dfa

structure Worklist where
  entries : List Entry
  queue : List Nat
  log : List Log.Event
deriving DecidableEq

namespace Worklist

/-- What becomes of the number that a round takes from the queue: its state is filled in, or no state
has this number, or no state has it any more when its transitions have been followed. -/
inductive Round where
  | filled (id : Nat)
  | unknown (id : Nat)
  | lost (id : Nat)
deriving DecidableEq

def empty : Worklist := ⟨[], [], []⟩

def note (w : Worklist) (event : Log.Event) : Worklist := { w with log := w.log ++ [event] }

def blank (id : Nat) (subset : IdSet) (isStart : Bool) : State := ⟨id, isStart, false, subset, []⟩

def add (w : Worklist) (subset : IdSet) (isStart : Bool) : Worklist × Nat :=
  let id := w.entries.length
  (⟨w.entries ++ [⟨subset, blank id subset isStart⟩], w.queue ++ [id],
    w.log ++ [.discovered id subset]⟩, id)

def number? (w : Worklist) (subset : IdSet) : Option Nat :=
  w.entries.findIdx? fun e => decide (e.key = subset)

def meet (w : Worklist) (subset : IdSet) : Worklist × Nat :=
  match w.number? subset with
  | some id => (w, id)
  | none => w.add subset false

def follow (m : Nfa) (source : Nat) (subset : IdSet) (w : Worklist) :
    List Char → Worklist × List (Char × Nat)
  | [] => (w, [])
  | c :: rest =>
    match m.successor? subset c with
    | none => follow m source subset w rest
    | some target =>
      let (w', id) := w.meet target
      let (w'', row) := follow m source subset (w'.note (.moved source c id)) rest
      (w'', (c, id) :: row)

def round? (m : Nfa) (symbols : List Char) (w : Worklist) : Option (Round × Worklist) :=
  match w.queue with
  | [] => none
  | id :: queue =>
    match w.entries[id]? with
    | none => some (.unknown id, { w with queue })
    | some e =>
      let (w', row) := follow m id e.key { w with queue } symbols
      match w'.entries[id]? with
      | none => some (.lost id, w')
      | some e' =>
        let state := { e'.state with isFinal := e.key.toList.any m.isFinal, row }
        some (.filled id, { w' with entries := w'.entries.set id { e' with state } })

def run (m : Nfa) (symbols : List Char) : Nat → Worklist → Worklist
  | 0, w => w
  | rounds + 1, w =>
    match w.round? m symbols with
    | none => w
    | some (_, w') => run m symbols rounds w'

/-- `Ends m symbols w rounds w'` says that the loop plays these rounds, one after the other, and
ends with the worklist `w'`, because its queue is empty. -/
inductive Ends (m : Nfa) (symbols : List Char) : Worklist → List Round → Worklist → Prop
  | empty {w : Worklist} : w.round? m symbols = none → Ends m symbols w [] w
  | round {w w' w'' : Worklist} {r : Round} {rounds : List Round} :
      w.round? m symbols = some (r, w') → Ends m symbols w' rounds w'' →
        Ends m symbols w (r :: rounds) w''

end Worklist

/-- The deterministic automaton of `m`, unless `m` has no start state. Every subset met holds ids of
`m` only and is met once, so that the number of sets of such ids is rounds enough. -/
def ofNfa? (A : Alphabet) (m : Nfa) : Option (Logged Dfa) :=
  m.start?.map fun start =>
    let (w, first) := Worklist.empty.add (m.epsilonClosure (.ofList [start])) true
    let w' := w.run m A.toList (Nat.pow 2 m.ids.size)
    let d : Dfa := ⟨A.toList, first, w'.entries⟩
    ⟨d, w'.log ++ [.determinized m.size d.size d.finals.length]⟩

end RegexAutomata.Dfa
