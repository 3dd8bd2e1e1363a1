import RegexAutomata.Nfa.Reach

/-! The search for what epsilon edges reach, as a loop over a stack. An id goes on the stack when it
is met for the first time; a round takes the id on top and follows the edges of its state. -/
namespace RegexAutomata.Nfa

/-- An epsilon edge of a state of `m`. The state that it leads to may be missing. -/
def EpsilonEdge (m : Nfa) (i j : Nat) : Prop := ∃ s, m.state? i = some s ∧ ⟨.epsilon, j⟩ ∈ s.edges

structure Search where
  seen : IdSet
  stack : List Nat
deriving DecidableEq

namespace Search

/-- All ids to start from wait on the stack, the largest one on top. -/
def start (ids : IdSet) : Search := ⟨ids, ids.toList.reverse⟩

def meet (w : Search) (id : Nat) : Search :=
  if id ∈ w.seen then w else ⟨w.seen.insert id, id :: w.stack⟩

def follow (w : Search) : List Edge → Search
  | [] => w
  | e :: edges => if e.label = .epsilon then (w.meet e.target).follow edges else w.follow edges

def round? (m : Nfa) (w : Search) : Option (Nat × Search) :=
  match w.stack with
  | [] => none
  | id :: stack =>
    match m.state? id with
    | none => some (id, { w with stack })
    | some s => some (id, follow { w with stack } s.edges)

/-- `Ends m w taken w'` says that the loop takes these ids from the stack, one after the other, and
ends with `w'`, because its stack is empty. -/
inductive Ends (m : Nfa) : Search → List Nat → Search → Prop
  | empty {w : Search} : w.round? m = none → Ends m w [] w
  | round {w w' w'' : Search} {id : Nat} {taken : List Nat} :
      w.round? m = some (id, w') → Ends m w' taken w'' → Ends m w (id :: taken) w''

end Search
end RegexAutomata.Nfa
