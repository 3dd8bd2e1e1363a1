import RegexAutomata.Nfa.Basic

/-! The combinators of Thompson's construction. Where new states are needed, they get the ids `n`
and `n + 1`, the start first. When ids collide, the state merged in later stays. -/
namespace RegexAutomata.Nfa

def ends (n : Nat) : Nfa :=
  ⟨.ofList [⟨n, true, false, []⟩, ⟨n + 1, false, true, []⟩], n, n + 1⟩

/-- Adds an edge behind those that leave `source`; nothing happens if that state is missing. -/
def link (m : Nfa) (source : Nat) (l : Label) (target : Nat) : Nfa :=
  let states := m.states.modify source (fun s => { s with edges := s.edges ++ [⟨l, target⟩] })
    (fun _ => rfl)
  { m with states }

def inner (m : Nfa) : Keyed State.id :=
  (m.states.modify m.entry (fun s => { s with isStart := false }) (fun _ => rfl)).modify m.exit
    (fun s => { s with isFinal := false }) (fun _ => rfl)

def symbol (n : Nat) (c : Char) : Nfa := (ends n).link n (.symbol c) (n + 1)

def star (n : Nat) (m : Nfa) : Nfa :=
  { ends n with states := (ends n).states.union m.inner }
    |>.link n .epsilon m.entry
    |>.link n .epsilon (n + 1)
    |>.link m.exit .epsilon (n + 1)
    |>.link m.exit .epsilon m.entry

def union (n : Nat) (l r : Nfa) : Nfa :=
  { ends n with states := ((ends n).states.union l.inner).union r.inner }
    |>.link n .epsilon l.entry
    |>.link n .epsilon r.entry
    |>.link l.exit .epsilon (n + 1)
    |>.link r.exit .epsilon (n + 1)

/-- The start of `r` is dropped and its edges leave the accepting state of `l` instead. -/
def concat (l r : Nfa) : Nfa :=
  let moved := match r.state? r.entry with
    | some s => s.edges
    | none => []
  let joint := l.states.modify l.exit
    (fun s => { s with isFinal := false, edges := s.edges ++ moved }) (fun _ => rfl)
  ⟨joint.union (r.states.erase r.entry), l.entry, r.exit⟩

end RegexAutomata.Nfa
