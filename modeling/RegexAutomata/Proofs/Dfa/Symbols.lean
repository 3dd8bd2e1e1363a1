import RegexAutomata.Proofs.Dfa.Simulation
import RegexAutomata.Proofs.Nfa.Trim

/-! Symbols that label no edge. The exploration passes over them, so that they give rise to no
subset, no transition and no other number. -/
namespace RegexAutomata

theorem Nfa.Over.successor?_eq_none {A : Alphabet} {m : Nfa} {c : Char} (h : m.Over A)
    (hc : A.contains c = false) (S : IdSet) : m.successor? S c = none := by
  refine Nfa.successor?_eq_none.2 fun j hj => ?_
  obtain ⟨i, _, hi⟩ := mem_advance.1 hj
  rw [h i j c hi] at hc
  cases hc

namespace Dfa
variable {m : Nfa} {q : Char → Bool} {A B : Alphabet}

namespace Exploration
variable (hq : ∀ c, q c = false → ∀ S, m.successor? S c = none)
include hq

theorem survey_filter (source : Nat) (S : IdSet) (found : List IdSet) (symbols : List Char) :
    survey m source S found (symbols.filter q) = survey m source S found symbols := by
  induction symbols generalizing found with
  | nil => rfl
  | cons c symbols ih =>
    cases hc : q c with
    | false => rw [List.filter_cons_of_neg (by simp [hc]), survey_of_none (hq c hc S), ih]
    | true =>
      rw [List.filter_cons_of_pos hc, survey, survey]
      cases m.successor? S c with
      | none => exact ih found
      | some T => simp only [ih]

theorem follow_filter (symbols : List Char) (e : Exploration) (S : IdSet) :
    e.follow m (symbols.filter q) S = e.follow m symbols S := by
  rw [follow, follow, survey_filter hq]

theorem run_filter (symbols : List Char) (rounds : Nat) (e : Exploration) :
    e.run m (symbols.filter q) rounds = e.run m symbols rounds := by
  induction rounds generalizing e with
  | zero => rfl
  | succ rounds ih =>
    rw [run, run]
    cases e.next? with
    | none => rfl
    | some S => simp only [follow_filter hq, ih]

end Exploration

def withAlphabet (A : Alphabet) (d : Dfa) : Dfa := { d with alphabet := A.toList }

/-- An automaton over `A` is determinized over a larger alphabet as over `A`. -/
theorem ofNfa?_of_within (h : A.Within B) (hm : m.Over A) : ofNfa? B m =
    (ofNfa? A m).map fun d => ⟨d.value.withAlphabet B, d.log⟩ := by
  have hexplore (s : Nat) : explore m A.toList s = explore m B.toList s := by
    rw [← h.filter, explore, explore, Exploration.run_filter]
    exact fun c hc S => hm.successor?_eq_none hc S
  simp only [ofNfa?_eq, hexplore, Option.map_map]
  rfl

end Dfa
end RegexAutomata
