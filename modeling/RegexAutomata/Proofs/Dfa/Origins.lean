import RegexAutomata.Proofs.Dfa.Reading

/-! The states of a deterministic automaton as a table of subsets. A state is found by its number and
by its subset alike, and its transitions lead where its subset leads. -/
namespace RegexAutomata.Dfa
open Exploration
variable {m : Nfa} {symbols : List Char} {s i : Nat} {S T : IdSet} {u : Char} {q : State}

/-- The states of `d` stand for subsets of the ids of `m`: each for one of its own, which is its key
too, the first one for what the start state `s` reaches, and every transition for a step of the whole
subset. -/
structure Indexed (A : Alphabet) (m : Nfa) (s : Nat) (d : Dfa) : Prop where
  id_eq : ∀ i q, d.state? i = some q → q.id = i
  key_eq : ∀ i q, d.state? i = some q → d.originOf? i = some q.origin
  distinct : ∀ i j q r, d.state? i = some q → d.state? j = some r → q.origin = r.origin → i = j
  found : ∀ i q S, d.state? i = some q → d.originOf? i = some S → d.standingFor? S = some q
  unknown : ∀ S, (∀ i, d.originOf? i ≠ some S) → d.standingFor? S = none
  start_eq : d.start = 0
  first : ∃ q, d.state? 0 = some q ∧ q.origin = m.epsilonClosure (.ofList [s])
  isStart_iff : ∀ i q, d.state? i = some q → (q.isStart = true ↔ i = 0)
  closed : ∀ i q, d.state? i = some q → m.EpsilonClosed q.origin
  isFinal_iff : ∀ i q, d.state? i = some q →
    (q.isFinal = true ↔ ∃ k ∈ q.origin, m.isFinal k = true)
  next?_iff : ∀ i S u j, d.originOf? i = some S →
    (d.next? i u = some j ↔ A.contains u = true ∧ (m.advance S u).isEmpty = false ∧
      d.originOf? j = some (m.epsilonClosure (m.advance S u)))

namespace Exploration

/-- All subsets that are met are closed: the first one, and what is read from any set. -/
theorem epsilonClosed_explore (hS : S ∈ (explore m symbols s).found) : m.EpsilonClosed S := by
  refine run_induction (P := fun e => ∀ S ∈ e.found, m.EpsilonClosed S) ?_ ?_ _ S hS
  · intro e T _ h U hU
    obtain hU | ⟨c, _, hc⟩ := mem_survey.1 hU
    · exact h U hU
    · exact (Nfa.successor?_eq_some.1 hc).2 ▸ Nfa.epsilonClosed_read m T c
  · intro U hU
    rw [List.mem_singleton.1 hU]
    exact epsilonClosed_start

end Exploration

/-- The state with the number `i` stands for the subset that was met as the `i`-th one. -/
theorem state?_explore_eq_some (hs : m.start? = some s) :
    ((explore m symbols s).toDfa m symbols).state? i = some q ↔
      (explore m symbols s).found[i]? = some q.origin ∧
        q = ⟨i, i == 0, q.origin.toList.any m.isFinal, q.origin,
          rowOf m symbols (explore m symbols s).found q.origin⟩ := by
  rw [state?_explore hs, Option.map_eq_some_iff]
  constructor
  · intro ⟨S, hS, hq⟩
    subst hq
    exact ⟨hS, rfl⟩
  · intro ⟨hS, hq⟩
    exact ⟨q.origin, hS, hq.symm⟩

/-- The numbers of the subsets are the places at which they are met. -/
theorem getElem?_found_iff (hs : m.start? = some s) (hS : S ∈ (explore m symbols s).found) :
    (explore m symbols s).found[i]? = some S ↔ (explore m symbols s).found.idxOf S = i := by
  have hidx := getElem?_idxOf hS
  constructor
  · intro hi
    have hdistinct : (explore m symbols s).found.Nodup := (sound_explore hs).distinct
    have hlt := List.idxOf_lt_length_of_mem hS
    exact (List.getElem?_inj hlt hdistinct).1 (hidx.trans hi.symm)
  · intro hi
    exact hi ▸ hidx

/-- A key is in the table once, so that the first entry with this key is the only one. -/
theorem standingFor?_explore (hs : m.start? = some s)
    (hq : ((explore m symbols s).toDfa m symbols).state? i = some q) :
    ((explore m symbols s).toDfa m symbols).standingFor? q.origin = some q := by
  obtain ⟨hfound, hstate⟩ := (state?_explore_eq_some hs).1 hq
  have hentry : ((explore m symbols s).toDfa m symbols).entries[i]? = some ⟨q.origin, q⟩ := by
    rw [getElem?_entries hs, hfound, Option.map_some, ← hstate]
  cases hfind : ((explore m symbols s).toDfa m symbols).entries.find? fun x =>
      decide (x.key = q.origin) with
  | none =>
    have hmem := List.mem_of_getElem? hentry
    exact (List.find?_eq_none.1 hfind _ hmem (decide_eq_true rfl)).elim
  | some x =>
    have hkey := List.find?_some hfind
    obtain ⟨j, hj⟩ := List.mem_iff_getElem?.1 (List.mem_of_find?_eq_some hfind)
    have hfound' : (explore m symbols s).found[j]? = some q.origin := by
      rw [← originOf?_explore, originOf?, hj, Option.map_some, of_decide_eq_true hkey]
    have hmem := List.mem_of_getElem? hfound
    have hi := (getElem?_found_iff hs hmem).1 hfound
    obtain rfl : i = j := hi.symm.trans ((getElem?_found_iff hs hmem).1 hfound')
    obtain rfl := Option.some.inj (hentry.symm.trans hj)
    rw [standingFor?, hfind, Option.map_some]

theorem standingFor?_eq_none {d : Dfa} (h : ∀ i, d.originOf? i ≠ some S) :
    d.standingFor? S = none := by
  rw [standingFor?, Option.map_eq_none_iff, List.find?_eq_none]
  intro x hx hkey
  obtain ⟨i, hi⟩ := List.mem_iff_getElem?.1 hx
  refine h i ?_
  rw [originOf?, hi, Option.map_some, of_decide_eq_true hkey]

theorem next?_explore_eq_some (hs : m.start? = some s) {j : Nat}
    (hS : (explore m symbols s).found[i]? = some S) :
    ((explore m symbols s).toDfa m symbols).next? i u = some j ↔
      u ∈ symbols ∧ ∃ T, m.successor? S u = some T ∧ (explore m symbols s).found[j]? = some T := by
  have hmem := List.mem_of_getElem? hS
  rw [← (getElem?_found_iff hs hmem).1 hS, next?_explore hs hmem]
  by_cases hu : u ∈ symbols
  · simp only [hu, if_true, true_and, Option.map_eq_some_iff]
    refine exists_congr fun T => and_congr_right fun hT => ?_
    exact (getElem?_found_iff hs (settled_explore hs hmem u hu T hT)).symm
  · simp [hu]

theorem indexed_explore {A : Alphabet} (hs : m.start? = some s) :
    ((explore m A.toList s).toDfa m A.toList).Indexed A m s where
  id_eq := by
    intro i q hq
    rw [((state?_explore_eq_some hs).1 hq).2]
  key_eq := by
    intro i q hq
    rw [originOf?_explore]
    exact ((state?_explore_eq_some hs).1 hq).1
  distinct := by
    intro i j q r hq hr h
    have hi := ((state?_explore_eq_some hs).1 hq).1
    have hj := ((state?_explore_eq_some hs).1 hr).1
    have hmem := List.mem_of_getElem? hi
    exact ((getElem?_found_iff hs hmem).1 hi).symm.trans ((getElem?_found_iff hs hmem).1 (h ▸ hj))
  found := by
    intro i q S hq hS
    rw [originOf?_explore, ((state?_explore_eq_some hs).1 hq).1, Option.some.injEq] at hS
    exact hS ▸ standingFor?_explore hs hq
  unknown := fun S hS => standingFor?_eq_none hS
  start_eq := rfl
  first := by
    have hfirst : (explore m A.toList s).found[0]? = _ := (sound_explore hs).first
    have hstate : ((explore m A.toList s).toDfa m A.toList).state? 0 = _ := state?_explore hs 0
    rw [hfirst, Option.map_some] at hstate
    exact ⟨_, hstate, rfl⟩
  isStart_iff := by
    intro i q hq
    -- `ofNfa?_eq` has shown that the flag given to `add` is set for the first subset only.
    rw [((state?_explore_eq_some hs).1 hq).2]
    exact beq_iff_eq
  closed := by
    intro i q hq
    exact epsilonClosed_explore (List.mem_of_getElem? ((state?_explore_eq_some hs).1 hq).1)
  isFinal_iff := by
    intro i q hq
    rw [((state?_explore_eq_some hs).1 hq).2]
    exact List.any_eq_true
  next?_iff := by
    intro i S u j hS
    rw [originOf?_explore] at hS
    rw [next?_explore_eq_some hs hS, originOf?_explore, Alphabet.contains, List.contains_iff_mem]
    refine and_congr_right fun _ => ?_
    rw [Nfa.successor?]
    cases (m.advance S u).isEmpty with
    | true => simp
    | false => simp [Nfa.read]

/-- The subset construction always succeeds from a start state, and comes to an index of the subsets
that it meets. -/
theorem exists_ofNfa?_indexed (A : Alphabet) (m : Nfa) (s : Nat) (hs : m.start? = some s) :
    ∃ d, ofNfa? A m = some d ∧ d.value.Indexed A m s := by
  obtain ⟨log, hd⟩ := exists_ofNfa?_eq A hs
  exact ⟨_, hd, indexed_explore hs⟩

/-- Two states on an epsilon cycle are one subset, and the id without a state is another. -/
theorem exists_ofNfa?_indexed_twins : twins.start? = some 0 ∧
    ∃ d, ofNfa? (Alphabet.empty.extend ['b']) twins = some d ∧
      d.value.Indexed (Alphabet.empty.extend ['b']) twins 0 ∧
      d.value.next? 0 'b' = some 1 ∧ d.value.next? 1 'b' = none := by
  have hs : twins.start? = some 0 := by decide
  obtain ⟨d, hd, hindexed⟩ := exists_ofNfa?_indexed (.extend .empty ['b']) twins 0 hs
  have hnext : (ofNfa? (Alphabet.empty.extend ['b']) twins).map
      (fun d => (d.value.next? 0 'b', d.value.next? 1 'b')) = some (some 1, none) := by decide
  rw [hd, Option.map_some, Option.some.injEq, Prod.mk.injEq] at hnext
  exact ⟨hs, d, hd, hindexed, hnext⟩

end RegexAutomata.Dfa
