import RegexAutomata.Proofs.Dfa.Reading

/-! The report of the subset construction. Subsets are announced in the order of their numbers, each
right before the first transition that enters it, and the transitions are reported in the order in
which the finished automaton lists them. -/
namespace RegexAutomata

namespace Log
variable {j : Nat} {log : List Event}

def Event.discovery? : Event → Option (Nat × IdSet)
  | .discovered id origin => some (id, origin)
  | _ => none

def Event.move? : Event → Option (Nat × Char × Nat)
  | .moved source c target => some (source, c, target)
  | _ => none

def discoveries (log : List Event) : List (Nat × IdSet) := log.filterMap Event.discovery?

def moves (log : List Event) : List (Nat × Char × Nat) := log.filterMap Event.move?

theorem discoveries_append (log new : List Event) :
    discoveries (log ++ new) = discoveries log ++ discoveries new := List.filterMap_append

theorem moves_append (log new : List Event) : moves (log ++ new) = moves log ++ moves new :=
  List.filterMap_append

/-- The announcement of `j` stands right before the first transition that enters `j`. -/
def Heralded (j : Nat) (log : List Event) : Prop :=
  ∃ before S i c after, log = before ++ .discovered j S :: .moved i c j :: after ∧
    ∀ i' c', .moved i' c' j ∉ before

theorem Heralded.append (h : Heralded j log) (new : List Event) : Heralded j (log ++ new) := by
  obtain ⟨before, S, i, c, after, rfl, hfirst⟩ := h
  exact ⟨before, S, i, c, after ++ new, by simp, hfirst⟩

end Log

namespace Dfa.Exploration
open Log
variable {m : Nfa} {symbols : List Char} {found : List IdSet} {S T : IdSet} {source : Nat} {c : Char}
  {log : List Event}

structure Reported (found : List IdSet) (log : List Event) : Prop where
  kinds : ∀ x ∈ log, (∃ j S, x = .discovered j S) ∨ ∃ i c j, x = .moved i c j
  discoveries_eq : discoveries log = found.mapIdx fun j S => (j, S)
  known : ∀ i c j, .moved i c j ∈ log → j < found.length
  heralded : ∀ j, 0 < j → j < found.length → Heralded j log

theorem reported_start (seed : IdSet) : Reported [seed] [.discovered 0 seed] where
  kinds := List.forall_mem_singleton.2 (.inl ⟨0, seed, rfl⟩)
  discoveries_eq := rfl
  known := by simp
  heralded := by
    intro j hpos hlt
    rw [List.length_singleton] at hlt
    omega

/-- A transition to a subset that has been met. -/
theorem Reported.move (h : Reported found log) (i : Nat) (c : Char) (hT : T ∈ found) :
    Reported found (log ++ [.moved i c (found.idxOf T)]) where
  kinds := List.forall_mem_append.2 ⟨h.kinds, List.forall_mem_singleton.2 (.inr ⟨i, c, _, rfl⟩)⟩
  discoveries_eq := by
    rw [discoveries_append, h.discoveries_eq]
    exact List.append_nil _
  known := by
    intro i' c' j hj
    obtain hj | hj := List.mem_append.1 hj
    · exact h.known i' c' j hj
    · obtain ⟨rfl, rfl, rfl⟩ := Event.moved.inj (List.mem_singleton.1 hj)
      exact List.idxOf_lt_length_of_mem hT
  heralded := fun j hpos hlt => (h.heralded j hpos hlt).append _

/-- A transition to a new subset. No transition can have entered its number before. -/
theorem Reported.discover (h : Reported found log) (i : Nat) (c : Char) (T : IdSet) :
    Reported (found ++ [T]) (log ++ [.discovered found.length T, .moved i c found.length]) where
  kinds := by
    refine List.forall_mem_append.2 ⟨h.kinds, List.forall_mem_cons.2 ⟨.inl ⟨_, T, rfl⟩, ?_⟩⟩
    exact List.forall_mem_singleton.2 (.inr ⟨i, c, _, rfl⟩)
  discoveries_eq := by
    rw [discoveries_append, h.discoveries_eq, List.mapIdx_append]
    simp [discoveries, Event.discovery?, List.filterMap_cons]
  known := by
    intro i' c' j hj
    rw [List.length_append, List.length_singleton]
    obtain hj | hj := List.mem_append.1 hj
    · exact Nat.lt_succ_of_lt (h.known i' c' j hj)
    · obtain ⟨rfl, rfl, rfl⟩ : i' = i ∧ c' = c ∧ j = found.length := by simpa using hj
      exact Nat.lt_succ_self _
  heralded := by
    intro j hpos hlt
    rw [List.length_append, List.length_singleton] at hlt
    obtain hlt | rfl := Nat.lt_succ_iff_lt_or_eq.1 hlt
    · exact (h.heralded j hpos hlt).append _
    · refine ⟨log, T, i, c, [], rfl, fun i' c' hmem => ?_⟩
      exact Nat.lt_irrefl _ (h.known i' c' _ hmem)

theorem Reported.step (h : Reported found log) (source : Nat) (c : Char) (T : IdSet) :
    Reported (meet found T) (log ++ stepLog found source c T) := by
  by_cases hT : T ∈ found
  · simpa [meet, stepLog, hT] using h.move source c hT
  · simpa [meet, stepLog, hT, List.idxOf_of_notMem] using h.discover source c T

theorem Reported.survey (h : Reported found log) (m : Nfa) (source : Nat) (S : IdSet)
    (symbols : List Char) :
    Reported (survey m source S found symbols).found
      (log ++ (survey m source S found symbols).log) := by
  induction symbols generalizing found log with
  | nil => simpa [Exploration.survey] using h
  | cons c symbols ih =>
    cases hT : m.successor? S c with
    | none => simpa [survey_of_none hT] using ih h
    | some T =>
      rw [survey_found_of_some hT, survey_log_of_some hT, ← List.append_assoc]
      exact ih (h.step source c T)

theorem reported_explore (m : Nfa) (symbols : List Char) (s : Nat) :
    Reported (explore m symbols s).found (explore m symbols s).log := by
  refine run_induction (P := fun e => Reported e.found e.log) ?_ (reported_start _) _
  intro e S _ h
  exact h.survey m e.rows.length S symbols

def listed (rows : List (List (Char × Nat))) : List (Nat × Char × Nat) :=
  (rows.mapIdx fun i row => row.map fun (c, j) => (i, c, j)).flatten

theorem moves_stepLog (found : List IdSet) (source : Nat) (c : Char) (T : IdSet) :
    moves (stepLog found source c T) = [(source, c, found.idxOf T)] := by
  by_cases hT : T ∈ found <;> simp [moves, stepLog, hT, Event.move?, List.filterMap_cons]

theorem moves_survey (m : Nfa) (source : Nat) (S : IdSet) (found : List IdSet)
    (symbols : List Char) : moves (survey m source S found symbols).log =
      (survey m source S found symbols).row.map fun (c, j) => (source, c, j) := by
  induction symbols generalizing found with
  | nil => rfl
  | cons c symbols ih =>
    cases hT : m.successor? S c with
    | none => simpa [survey_of_none hT] using ih found
    | some T =>
      rw [survey_log_of_some hT, survey_row_of_some hT, moves_append, moves_stepLog, ih]
      rfl

/-- The rows are reported as they are added. -/
theorem moves_explore (m : Nfa) (symbols : List Char) (s : Nat) :
    moves (explore m symbols s).log = listed (explore m symbols s).rows := by
  refine run_induction (P := fun e => moves e.log = listed e.rows) ?_ rfl _
  intro e S _ h
  rw [follow, moves_append, h, moves_survey]
  simp [listed]

end Dfa.Exploration

namespace Dfa
open Exploration Log
variable {m : Nfa} {symbols : List Char} {s : Nat}

/-- What the log of a subset construction tells about the automaton it comes to. -/
structure Documented (d : Dfa) (log : List Event) : Prop where
  kinds : ∀ x ∈ log, (∃ j S, x = .discovered j S) ∨ ∃ i c j, x = .moved i c j
  discoveries_eq : discoveries log = d.states.map fun q => (q.id, q.origin)
  ids_eq : d.states.map State.id = List.range d.size
  moves_eq : moves log = d.transitions
  heralded : ∀ j, 0 < j → j < d.size → Heralded j log

/-- The states are the subsets in the order in which they are met. -/
theorem states_explore (hs : m.start? = some s) :
    ((explore m symbols s).toDfa m symbols).states =
      (explore m symbols s).found.zipIdx.map fun x =>
        ⟨x.2, x.2 == 0, x.1.toList.any m.isFinal, x.1,
          rowOf m symbols (explore m symbols s).found x.1⟩ := by
  refine List.ext_getElem? fun k => (state?_explore hs k).trans ?_
  rw [List.getElem?_map, List.getElem?_zipIdx, Option.map_map, Nat.zero_add]
  rfl

theorem documented_explore (hs : m.start? = some s) :
    Documented ((explore m symbols s).toDfa m symbols) (explore m symbols s).log := by
  have hreported := reported_explore m symbols s
  refine ⟨hreported.kinds, ?_, ?_, ?_, ?_⟩
  · rw [hreported.discoveries_eq, states_explore hs, List.mapIdx_eq_zipIdx_map, List.map_map]
    rfl
  · rw [size_toDfa, states_explore hs, List.map_map, List.range_eq_range']
    exact List.zipIdx_map_snd 0 _
  · rw [moves_explore, rows_eq_map hs, listed, transitions, states_explore hs,
      List.mapIdx_eq_zipIdx_map, List.zipIdx_map, List.map_map, List.flatMap_map]
    rfl
  · intro j hpos hlt
    exact hreported.heralded j hpos (size_toDfa m symbols _ ▸ hlt)

theorem documented_ofNfa? {A : Alphabet} {d : Logged Dfa} (h : ofNfa? A m = some d) :
    ∃ log, d.log = log ++ [.determinized m.size d.value.size d.value.finals.length] ∧
      d.value.Documented log := by
  obtain ⟨s, hs, rfl⟩ := Option.map_eq_some_iff.1 (ofNfa?_eq A m ▸ h)
  exact ⟨_, rfl, documented_explore hs⟩

end Dfa
end RegexAutomata
