import RegexAutomata.Proofs.Dfa.Reading

/-! The loop over a queue ends when every number has come out of the queue once, in ascending order,
and there are no more numbers than sets of ids. -/
namespace RegexAutomata.Dfa.Worklist
open Exploration
variable {m : Nfa} {symbols : List Char} {e : Exploration} {s : Nat}

def start (subset : IdSet) : Worklist := (empty.add subset true).1

/-- A run of the exploration that leaves no subset without a row is a run of the loop to its end. -/
theorem exists_ends (rounds : Nat) (h : (e.run m symbols rounds).next? = none) :
    ∃ k, (e.run m symbols rounds).rows.length = e.rows.length + k ∧
      Ends m symbols (ofExploration m e) ((List.range' e.rows.length k).map .filled)
        (ofExploration m (e.run m symbols rounds)) := by
  induction rounds generalizing e with
  | zero => exact ⟨0, rfl, .empty (round?_eq_none h)⟩
  | succ rounds ih =>
    cases hS : e.next? with
    | none =>
      simp only [Exploration.run, hS]
      exact ⟨0, rfl, .empty (round?_eq_none hS)⟩
    | some S =>
      simp only [Exploration.run, hS] at h ⊢
      obtain ⟨k, hrows, hends⟩ := ih h
      have hlength : (e.follow m symbols S).rows.length = e.rows.length + 1 := by
        simp [Exploration.follow]
      rw [hlength] at hrows hends
      refine ⟨k + 1, by omega, ?_⟩
      rw [List.range'_succ, List.map_cons]
      exact .round (round?_ofExploration hS) hends

/-- From a start state the loop ends with the table of the automaton. Each number has been taken from
the queue once, in ascending order, and its state has been filled in. -/
theorem exists_ends_ofNfa? (A : Alphabet) (m : Nfa) :
    (m.start? = none → ofNfa? A m = none) ∧
    ∀ s, m.start? = some s → ∃ d w, ofNfa? A m = some d ∧
      Ends m A.toList (start (m.epsilonClosure (.ofList [s])))
        ((List.range d.value.size).map .filled) w ∧
      w.entries = d.value.entries ∧ d.value.size ≤ Nat.pow 2 m.ids.size := by
  refine ⟨fun hs => by rw [ofNfa?, hs, Option.map_none], fun s hs => ?_⟩
  obtain ⟨log, hd⟩ := exists_ofNfa?_eq A hs
  have hsound : Exploration.Sound m A.toList _ (explore m A.toList s) := sound_explore hs
  have hrows : (explore m A.toList s).rows.length = (explore m A.toList s).found.length :=
    rows_explore hs
  have hnext : (explore m A.toList s).next? = none :=
    List.getElem?_eq_none (Nat.le_of_eq hrows.symm)
  obtain ⟨k, hk, hends⟩ := exists_ends (Nat.pow 2 m.ids.size) hnext
  have hsize : ((explore m A.toList s).toDfa m A.toList).size = k := by
    rw [size_toDfa, ← hrows]
    exact hk.trans (Nat.zero_add k)
  refine ⟨_, ofExploration m (explore m A.toList s), hd, ?_, rfl, ?_⟩
  · rw [hsize, List.range_eq_range']
    exact hends
  · rw [size_toDfa]
    exact length_le_of_inside hsound.distinct hsound.inside

/-- Two states on an epsilon cycle and an id without a state: two rounds fill in both subsets. -/
theorem exists_ends_ofNfa?_twins : twins.start? = some 0 ∧
    ∃ d w, ofNfa? (Alphabet.empty.extend ['b']) twins = some d ∧
      Ends twins ['b'] (start (twins.epsilonClosure (.ofList [0]))) [.filled 0, .filled 1] w ∧
      w.entries = d.value.entries ∧ twins.ids.size = 3 := by
  have hs : twins.start? = some 0 := by decide
  obtain ⟨d, w, hd, hends, hentries, _⟩ :=
    (exists_ends_ofNfa? (Alphabet.empty.extend ['b']) twins).2 0 hs
  have hsize : (ofNfa? (Alphabet.empty.extend ['b']) twins).map (fun d => d.value.size) = some 2 := by
    decide
  rw [hd, Option.map_some, Option.some.injEq] at hsize
  rw [hsize] at hends
  exact ⟨hs, d, w, hd, hends, hentries, by decide⟩

end RegexAutomata.Dfa.Worklist
