import RegexAutomata.Proofs.Dfa.Reading

/-! Deterministic automata without useless states. The exploration enters every subset by a word,
and where all paths can be completed, a final state can be reached from everywhere. -/
namespace RegexAutomata.Dfa
open Exploration
variable {m : Nfa} {symbols : List Char} {s source : Nat} {S seed : IdSet} {found : List IdSet}
  {e : Exploration} {w : List Char}

/-- Every state is entered by a word, stands for some state, and lets reading go on to a final
state. -/
structure Trim (d : Dfa) : Prop where
  reachable : ∀ q ∈ d.states, ∃ w, d.readFrom? d.start w = some q.id
  inhabited : ∀ q ∈ d.states, ∃ i, i ∈ q.origin
  productive : ∀ q ∈ d.states, ∃ w, ∃ q' ∈ d.states,
    d.readFrom? q.id w = some q'.id ∧ q'.isFinal = true

namespace Exploration

def Reached (m : Nfa) (symbols : List Char) (seed : IdSet) (found : List IdSet) : Prop :=
  ∀ S ∈ found, ∃ w, m.readWord? symbols seed w = some S

theorem reached_start (m : Nfa) (symbols : List Char) (seed : IdSet) :
    Reached m symbols seed (start seed).found := by
  intro S hS
  obtain rfl := List.mem_singleton.1 hS
  exact ⟨[], rfl⟩

/-- What a survey adds is one letter away from the subset surveyed. -/
theorem Reached.survey (h : Reached m symbols seed found) (hS : S ∈ found) :
    Reached m symbols seed (survey m source S found symbols).found := by
  intro T hT
  obtain hT | ⟨c, hc, hT⟩ := mem_survey.1 hT
  · exact h T hT
  · obtain ⟨w, hw⟩ := h S hS
    refine ⟨w ++ [c], ?_⟩
    simp [Nfa.readWord?_append, Nfa.readWord?, hw, hc, hT]

theorem Reached.run (h : Reached m symbols seed e.found) (rounds : Nat) :
    Reached m symbols seed (e.run m symbols rounds).found := by
  refine run_induction (P := fun e => Reached m symbols seed e.found) ?_ h rounds
  intro e S hS h
  exact h.survey (List.mem_of_getElem? hS)

theorem reached_explore (m : Nfa) (symbols : List Char) (s : Nat) :
    Reached m symbols (m.epsilonClosure (.ofList [s])) (explore m symbols s).found :=
  (reached_start m symbols _).run _

end Exploration

/-- A word that enters a state, and the paths that spell it. -/
theorem exists_word_of_mem (hs : m.start? = some s) {q : State}
    (hq : q ∈ ((explore m symbols s).toDfa m symbols).states) :
    ∃ w, (∀ c ∈ w, c ∈ symbols) ∧ (∃ k, m.Path s w k) ∧
      ((explore m symbols s).toDfa m symbols).readFrom? 0 w = some q.id ∧
      ∀ k, k ∈ q.origin ↔ m.Path s w k := by
  obtain ⟨w, hw⟩ := reached_explore m symbols s _ (List.mem_of_getElem? (getElem?_found hs hq))
  obtain ⟨hletters, hpath⟩ := readWord?_start_isSome_iff.1 (Option.isSome_of_eq_some hw)
  obtain ⟨q', hq', hread, _, horigin, _⟩ := exists_state_of_readWord? hs hw
  obtain rfl := eq_of_origin_eq hs hq' hq horigin
  exact ⟨w, hletters, hpath, hread, fun k => mem_of_readWord?_start hw⟩

section completion
variable (hs : m.start? = some s) (hlive : ∀ w k, m.Path s w k →
  ∃ v k', (∀ c ∈ v, c ∈ symbols) ∧ m.Path k v k' ∧ m.isFinal k' = true)
include hs hlive

theorem trim_explore : ((explore m symbols s).toDfa m symbols).Trim where
  reachable := by
    intro q hq
    obtain ⟨w, _, _, hread, _⟩ := exists_word_of_mem hs hq
    exact ⟨w, hread⟩
  inhabited := by
    intro q hq
    obtain ⟨w, _, ⟨k, hk⟩, _, horigin⟩ := exists_word_of_mem hs hq
    exact ⟨k, (horigin k).2 hk⟩
  productive := by
    intro q hq
    obtain ⟨w, hw, ⟨k, hk⟩, hread, _⟩ := exists_word_of_mem hs hq
    obtain ⟨v, k', hv, hk', hfinal⟩ := hlive w k hk
    have hpath := hk.append hk'
    obtain ⟨q', hq', hread', _, horigin', hfinal'⟩ :=
      exists_state_reached hs (List.forall_mem_append.2 ⟨hw, hv⟩) ⟨k', hpath⟩
    rw [readFrom?_append, hread, Option.bind_some] at hread'
    refine ⟨v, q', hq', hread', ?_⟩
    rw [hfinal']
    exact List.any_eq_true.2 ⟨k', (horigin' k').2 hpath, hfinal⟩

theorem exists_accepted_append (hw : ∀ c ∈ w, c ∈ symbols) (hp : ∃ k, m.Path s w k) :
    ∃ v, ((explore m symbols s).toDfa m symbols).accepts (w ++ v) = true := by
  obtain ⟨k, hk⟩ := hp
  obtain ⟨v, k', hv, hk', hfinal⟩ := hlive w k hk
  refine ⟨v, (accepts_explore hs _).2 ⟨List.forall_mem_append.2 ⟨hw, hv⟩, k', ?_, hfinal⟩⟩
  exact hk.append hk'

/-- Reading misses a transition exactly where no accepted word goes on. -/
theorem isSome_readFrom?_iff (w : List Char) :
    (((explore m symbols s).toDfa m symbols).readFrom? 0 w).isSome = true ↔
      ∃ v, w <+: v ∧ ((explore m symbols s).toDfa m symbols).accepts v = true := by
  constructor
  · intro h
    rw [readFrom?_start hs, Option.isSome_map] at h
    obtain ⟨hw, hp⟩ := readWord?_start_isSome_iff.1 h
    obtain ⟨v, hv⟩ := exists_accepted_append hs hlive hw hp
    exact ⟨w ++ v, List.prefix_append w v, hv⟩
  · intro ⟨_, ⟨v, rfl⟩, hv⟩
    have hstart : ((explore m symbols s).toDfa m symbols).start = 0 := rfl
    rw [accepts, hstart, readFrom?_append] at hv
    cases hread : ((explore m symbols s).toDfa m symbols).readFrom? 0 w with
    | some k => rfl
    | none => simp [hread] at hv

end completion

end RegexAutomata.Dfa
