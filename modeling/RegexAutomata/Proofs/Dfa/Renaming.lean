import RegexAutomata.Proofs.Dfa.Reading
import RegexAutomata.Proofs.Nfa.Renaming

/-! The subset construction does not look at ids. Under other ids the subsets are met in the same
order, whatever order the new ids bring into them, so that only the subsets change. -/
namespace RegexAutomata.Dfa
open Exploration
variable {f : Nat → Nat} {m : Nfa} {symbols : List Char} {s source rounds : Nat} {S T seed : IdSet}
  {found : List IdSet} {e e' : Exploration}

def State.rename (f : Nat → Nat) (q : State) : State := { q with origin := q.origin.image f }

def Entry.rename (f : Nat → Nat) (x : Entry) : Entry := ⟨x.key.image f, x.state.rename f⟩

def rename (f : Nat → Nat) (d : Dfa) : Dfa := { d with entries := d.entries.map (Entry.rename f) }

section injective
variable (hf : Set.InjOn f {i | i ∈ m.ids})
include hf

section found
variable (hfound : ∀ S ∈ found, ∀ i ∈ S, i ∈ m.ids) (hT : ∀ i ∈ T, i ∈ m.ids)
include hfound hT

theorem mem_map_image : T.image f ∈ found.map (IdSet.image f) ↔ T ∈ found := by
  constructor
  · intro h
    obtain ⟨S, hS, heq⟩ := List.mem_map.1 h
    exact (IdSet.image_inj hf (hfound S hS) hT).1 heq ▸ hS
  · exact List.mem_map_of_mem

theorem idxOf_map_image : (found.map (IdSet.image f)).idxOf (T.image f) = found.idxOf T := by
  induction found with
  | nil => rfl
  | cons S found ih =>
    obtain ⟨hS, hfound⟩ := List.forall_mem_cons.1 hfound
    have hbeq : (S.image f == T.image f) = (S == T) := by
      rw [Bool.eq_iff_iff, beq_iff_eq, beq_iff_eq]
      exact IdSet.image_inj hf hS hT
    rw [List.map_cons, List.idxOf_cons, List.idxOf_cons, hbeq, ih hfound]

theorem meet_map_image :
    meet (found.map (IdSet.image f)) (T.image f) = (meet found T).map (IdSet.image f) := by
  by_cases h : T ∈ found
  · simp [meet, h, (mem_map_image hf hfound hT).2 h]
  · simp [meet, h, mt (mem_map_image hf hfound hT).1 h]

end found

theorem found_survey_rename (hfound : ∀ S ∈ found, ∀ i ∈ S, i ∈ m.ids) (hS : ∀ i ∈ S, i ∈ m.ids)
    (source' : Nat) :
    (survey (m.rename f) source' (S.image f) (found.map (IdSet.image f)) symbols).found =
      (survey m source S found symbols).found.map (IdSet.image f) := by
  induction symbols generalizing found with
  | nil => rfl
  | cons c symbols ih =>
    have hsuccessor := Nfa.successor?_rename hf hS c
    cases hT : m.successor? S c with
    | none =>
      rw [hT] at hsuccessor
      rw [survey_of_none hT, survey_of_none hsuccessor]
      exact ih hfound
    | some T =>
      rw [hT] at hsuccessor
      have hinside : ∀ i ∈ T, i ∈ m.ids := by
        intro i hi
        exact Nfa.read_mem_ids ((Nfa.successor?_eq_some.1 hT).2 ▸ hi)
      rw [survey_found_of_some hT, survey_found_of_some hsuccessor,
        meet_map_image hf hfound hinside]
      refine ih fun U hU => ?_
      obtain hU | rfl := mem_meet.1 hU
      · exact hfound U hU
      · exact hinside

/-- Two explorations side by side, with as many subsets surveyed in one as in the other. -/
theorem found_run_rename (hsound : Sound m symbols seed e)
    (hfound : e'.found = e.found.map (IdSet.image f)) (hrows : e'.rows.length = e.rows.length) :
    (e'.run (m.rename f) symbols rounds).found =
      (e.run m symbols rounds).found.map (IdSet.image f) := by
  induction rounds generalizing e e' with
  | zero => exact hfound
  | succ rounds ih =>
    have hnext : e'.next? = e.next?.map (IdSet.image f) := by
      rw [Exploration.next?, Exploration.next?, hfound, hrows, List.getElem?_map]
    cases hS : e.next? with
    | none =>
      rw [hS] at hnext
      simpa [Exploration.run, hS, hnext] using hfound
    | some S =>
      rw [hS] at hnext
      have hinside := hsound.inside S (List.mem_of_getElem? hS)
      simp only [Exploration.run, hS, hnext, Option.map_some]
      refine ih (hsound.follow hS) ?_ ?_
      · rw [Exploration.follow, Exploration.follow, hfound]
        exact found_survey_rename hf hsound.inside hinside _
      · simp [Exploration.follow, hrows]

theorem found_explore_rename (hs : m.start? = some s) :
    (explore (m.rename f) symbols (f s)).found =
      (explore m symbols s).found.map (IdSet.image f) := by
  have hmem : s ∈ m.ids := by
    obtain ⟨rfl, hhas⟩ := Nfa.start?_eq_some_iff.1 hs
    exact Nfa.mem_ids.2 (.inl hhas)
  have hseed : (.ofList [f s] : IdSet) = IdSet.image f (.ofList [s]) := by
    refine IdSet.ext fun i => ?_
    simp [eq_comm]
  have hclosure : (m.rename f).epsilonClosure (.ofList [f s]) =
      (m.epsilonClosure (.ofList [s])).image f := by
    rw [hseed]
    refine Nfa.epsilonClosure_rename hf fun i hi => ?_
    rwa [List.mem_singleton.1 (IdSet.mem_ofList.1 hi)]
  rw [explore, explore, Nfa.ids_rename hf, IdSet.size_image hf, hclosure]
  exact found_run_rename hf (sound_start fun _ hi => start_inside hs hi) rfl rfl

theorem rowOf_rename (hs : m.start? = some s) (hS : S ∈ (explore m symbols s).found) :
    rowOf (m.rename f) symbols (explore (m.rename f) symbols (f s)).found (S.image f) =
      rowOf m symbols (explore m symbols s).found S := by
  have hinside : ∀ S ∈ (explore m symbols s).found, ∀ i ∈ S, i ∈ m.ids := (sound_explore hs).inside
  rw [found_explore_rename hf hs]
  refine List.filterMap_congr fun c hc => ?_
  rw [Nfa.successor?_rename hf (hinside S hS)]
  cases hT : m.successor? S c with
  | none => rfl
  | some T =>
    have hmem : T ∈ (explore m symbols s).found := settled_explore hs hS c hc T hT
    simp only [Option.map_some, idxOf_map_image hf hinside (hinside T hmem)]

theorem any_isFinal_rename (hS : ∀ i ∈ S, i ∈ m.ids) :
    (S.image f).toList.any (m.rename f).isFinal = S.toList.any m.isFinal := by
  rw [Bool.eq_iff_iff, List.any_eq_true, List.any_eq_true]
  constructor
  · rintro ⟨_, hj, hfinal⟩
    obtain ⟨i, hi, rfl⟩ := IdSet.mem_image.1 hj
    exact ⟨i, hi, by rwa [← Nfa.isFinal_rename hf (hS i hi)]⟩
  · rintro ⟨i, hi, hfinal⟩
    exact ⟨f i, IdSet.mem_image.2 ⟨i, hi, rfl⟩, by rwa [Nfa.isFinal_rename hf (hS i hi)]⟩

theorem toDfa_rename (hs : m.start? = some s) :
    (explore (m.rename f) symbols (f s)).toDfa (m.rename f) symbols =
      ((explore m symbols s).toDfa m symbols).rename f := by
  have hinside : ∀ S ∈ (explore m symbols s).found, ∀ i ∈ S, i ∈ m.ids := (sound_explore hs).inside
  have hentries : ((explore (m.rename f) symbols (f s)).toDfa (m.rename f) symbols).entries =
      (((explore m symbols s).toDfa m symbols).rename f).entries := by
    refine List.ext_getElem? fun k => ?_
    rw [rename, List.getElem?_map, getElem?_entries (Nfa.start?_rename f hs), getElem?_entries hs,
      found_explore_rename hf hs, List.getElem?_map, Option.map_map, Option.map_map]
    refine Option.map_congr fun S hS => ?_
    have hmem : S ∈ (explore m symbols s).found := List.mem_of_getElem? hS
    have hrow := rowOf_rename hf hs hmem
    rw [found_explore_rename hf hs] at hrow
    simp only [Function.comp_apply, Entry.rename, State.rename, hrow,
      any_isFinal_rename hf (hinside S hmem)]
  rw [toDfa, Dfa.mk.injEq]
  exact ⟨rfl, rfl, hentries⟩

/-- Under other ids the construction comes to the same automaton over the images of the sets. -/
theorem exists_ofNfa?_rename (A : Alphabet) (hs : m.start? = some s) :
    ∃ d d', ofNfa? A m = some d ∧ ofNfa? A (m.rename f) = some d' ∧
      d'.value = d.value.rename f := by
  obtain ⟨_, hd⟩ := exists_ofNfa?_eq A hs
  obtain ⟨_, hd'⟩ := exists_ofNfa?_eq A (Nfa.start?_rename f hs)
  exact ⟨_, _, hd, hd', toDfa_rename hf hs⟩

end injective

end RegexAutomata.Dfa
