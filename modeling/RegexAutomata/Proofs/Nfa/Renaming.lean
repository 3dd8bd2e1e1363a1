import Mathlib.Data.List.Basic
import Mathlib.Data.List.Find
import Mathlib.Data.List.Nodup
import Mathlib.Data.Set.Function
import RegexAutomata.Dfa.Subset
import RegexAutomata.Proofs.Nfa.Fragment

/-! Nondeterministic automata with other ids. As long as no two ids of the automaton become one,
states, edges and paths are carried over, and so is every set of states under reading. -/
namespace RegexAutomata

namespace IdSet
variable {f : Nat → Nat} {S T V : IdSet} {j : Nat}

def image (f : Nat → Nat) (S : IdSet) : IdSet := .ofList (S.toList.map f)

@[simp] theorem mem_image : j ∈ image f S ↔ ∃ i ∈ S, f i = j := by
  rw [image, mem_ofList, List.mem_map]
  exact Iff.rfl

/-- What leads from the image of a set to somewhere leads to the image of where the set leads. -/
theorem exists_mem_image {R R' : Nat → Nat → Prop}
    (h : ∀ i ∈ S, ∀ j, R' (f i) j ↔ ∃ k, R i k ∧ f k = j) :
    (∃ i ∈ image f S, R' i j) ↔ ∃ k, (∃ i ∈ S, R i k) ∧ f k = j := by
  constructor
  · rintro ⟨_, hmem, hj⟩
    obtain ⟨i, hi, rfl⟩ := mem_image.1 hmem
    obtain ⟨k, hk, hkj⟩ := (h i hi j).1 hj
    exact ⟨k, ⟨i, hi, hk⟩, hkj⟩
  · rintro ⟨k, ⟨i, hi, hk⟩, hkj⟩
    exact ⟨f i, mem_image.2 ⟨i, hi, rfl⟩, (h i hi j).2 ⟨k, hk, hkj⟩⟩

theorem isEmpty_image (f : Nat → Nat) (S : IdSet) : (image f S).isEmpty = S.isEmpty := by
  rw [Bool.eq_iff_iff, isEmpty_iff, isEmpty_iff]
  constructor
  · intro h i hi
    exact h (f i) (mem_image.2 ⟨i, hi, rfl⟩)
  · intro h j hj
    obtain ⟨i, hi, _⟩ := mem_image.1 hj
    exact h i hi

theorem mem_of_mem_image (hf : Set.InjOn f {i | i ∈ V}) (hS : ∀ i ∈ S, i ∈ V) {i : Nat}
    (hi : i ∈ V) (h : f i ∈ image f S) : i ∈ S := by
  obtain ⟨k, hk, hki⟩ := mem_image.1 h
  exact hf (hS k hk) hi hki ▸ hk

/-- Sets of ids that are kept apart have the same image only if they are the same. -/
theorem image_inj (hf : Set.InjOn f {i | i ∈ V}) (hS : ∀ i ∈ S, i ∈ V) (hT : ∀ i ∈ T, i ∈ V) :
    image f S = image f T ↔ S = T := by
  refine ⟨fun h => ext fun i => ?_, congrArg (image f)⟩
  constructor
  · intro hi
    exact mem_of_mem_image hf hT (hS i hi) (h ▸ mem_image.2 ⟨i, hi, rfl⟩)
  · intro hi
    exact mem_of_mem_image hf hS (hT i hi) (h ▸ mem_image.2 ⟨i, hi, rfl⟩)

theorem nodup (S : IdSet) : S.toList.Nodup := S.ascending.imp Nat.ne_of_lt

theorem size_image (hf : Set.InjOn f {i | i ∈ S}) : (image f S).size = S.size := by
  have hnodup : (S.toList.map f).Nodup := List.Nodup.map_on (fun i hi j hj => @hf i hi j hj) S.nodup
  have hperm : (image f S).toList.Perm (S.toList.map f) :=
    (List.perm_ext_iff_of_nodup (nodup _) hnodup).2 fun j => mem_image.trans List.mem_map.symm
  rw [Keyed.size, hperm.length_eq, List.length_map, Keyed.size]

end IdSet

def Edge.rename (f : Nat → Nat) (e : Edge) : Edge := { e with target := f e.target }

namespace Nfa
variable {f : Nat → Nat} {m : Nfa} {i j : Nat} {l : Label} {c : Char} {w : List Char} {S : IdSet}

def State.rename (f : Nat → Nat) (s : State) : State :=
  { s with id := f s.id, edges := s.edges.map (Edge.rename f) }

/-- The automaton with `f i` for every id `i`. Of states that get the same id one stays. -/
def rename (f : Nat → Nat) (m : Nfa) : Nfa :=
  ⟨.ofList (m.states.toList.map (State.rename f)), f m.entry, f m.exit⟩

@[simp] theorem entry_rename (f : Nat → Nat) (m : Nfa) : (m.rename f).entry = f m.entry := rfl

@[simp] theorem exit_rename (f : Nat → Nat) (m : Nfa) : (m.rename f).exit = f m.exit := rfl

theorem State.targets_rename (f : Nat → Nat) (s : State) (l : Label) :
    (s.rename f).targets l = (s.targets l).map f := by
  simp only [State.targets, State.rename, List.filterMap_map, List.map_filterMap]
  refine List.filterMap_congr fun e _ => ?_
  by_cases h : e.label = l <;> simp [Edge.rename, h]

theorem state?_rename (h : ∀ j, m.Has j → f j = f i → j = i) :
    (m.rename f).state? (f i) = (m.state? i).map (State.rename f) := by
  rw [state?, rename, Keyed.find?_ofList, List.find?_map, state?, Keyed.find?]
  congr 1
  refine List.find?_congr fun s hs => ?_
  have hhas : m.Has s.id := Has.of_mem hs
  rw [Bool.eq_iff_iff, beq_iff_eq, Function.comp_apply, beq_iff_eq]
  exact ⟨h s.id hhas, congrArg f⟩

theorem has_rename : (m.rename f).Has j ↔ ∃ i, m.Has i ∧ f i = j := by
  rw [Has, state?, rename, Keyed.find?_ofList, List.find?_isSome]
  constructor
  · rintro ⟨_, hs', hid⟩
    obtain ⟨s, hs, rfl⟩ := List.mem_map.1 hs'
    exact ⟨s.id, Has.of_mem hs, beq_iff_eq.1 hid⟩
  · rintro ⟨i, hi, rfl⟩
    obtain ⟨s, hs⟩ := Option.isSome_iff_exists.1 hi
    obtain ⟨hmem, rfl⟩ := Keyed.find?_eq_some_iff.1 hs
    exact ⟨s.rename f, List.mem_map.2 ⟨s, hmem, rfl⟩, beq_iff_eq.2 rfl⟩

theorem exists_of_has_rename (h : (m.rename f).Has j) : ∃ i, f i = j := by
  obtain ⟨i, _, hi⟩ := has_rename.1 h
  exact ⟨i, hi⟩

theorem start?_rename {s : Nat} (f : Nat → Nat) (hs : m.start? = some s) :
    (m.rename f).start? = some (f s) := by
  obtain ⟨rfl, hhas⟩ := start?_eq_some_iff.1 hs
  exact start?_eq_some_iff.2 ⟨rfl, has_rename.2 ⟨m.entry, hhas, rfl⟩⟩

section injective
variable (hf : Set.InjOn f {i | i ∈ m.ids})
include hf

theorem state?_rename_of_mem (hi : i ∈ m.ids) :
    (m.rename f).state? (f i) = (m.state? i).map (State.rename f) :=
  state?_rename fun _ hj hji => hf (mem_ids.2 (.inl hj)) hi hji

theorem targetsOf_rename (hi : i ∈ m.ids) (l : Label) :
    (m.rename f).targetsOf l (f i) = (m.targetsOf l i).map f := by
  rw [targetsOf, targetsOf, state?_rename_of_mem hf hi]
  cases m.state? i with
  | none => rfl
  | some s => exact s.targets_rename f l

theorem isFinal_rename (hi : i ∈ m.ids) : (m.rename f).isFinal (f i) = m.isFinal i := by
  rw [isFinal, isFinal, state?_rename_of_mem hf hi, Option.any_map]
  rfl

theorem ids_rename : (m.rename f).ids = m.ids.image f := by
  refine IdSet.ext fun j => ?_
  rw [IdSet.mem_image, mem_ids]
  constructor
  · rintro (hj | ⟨l, k', hj⟩)
    · obtain ⟨i, hi, rfl⟩ := has_rename.1 hj
      exact ⟨i, mem_ids.2 (.inl hi), rfl⟩
    · obtain ⟨k, hk, rfl⟩ := has_rename.1 (Has.of_target hj)
      rw [targetsOf_rename hf (mem_ids.2 (.inl hk))] at hj
      obtain ⟨i, hi, rfl⟩ := List.mem_map.1 hj
      exact ⟨i, target_mem_ids hi, rfl⟩
  · rintro ⟨i, hi, rfl⟩
    obtain hi | ⟨l, k, hi⟩ := mem_ids.1 hi
    · exact .inl (has_rename.2 ⟨i, hi, rfl⟩)
    · refine .inr ⟨l, f k, ?_⟩
      rw [targetsOf_rename hf (mem_ids.2 (.inl (Has.of_target hi)))]
      exact List.mem_map.2 ⟨i, hi, rfl⟩

theorem path_rename (hi : i ∈ m.ids) :
    (m.rename f).Path (f i) w j ↔ ∃ k, m.Path i w k ∧ f k = j := by
  constructor
  · intro h
    generalize hi' : f i = i' at h
    induction h generalizing i with
    | stay => exact ⟨i, .stay i, hi'⟩
    | epsilon he _ ih =>
      subst hi'
      rw [targetsOf_rename hf hi] at he
      obtain ⟨k, hk, hki⟩ := List.mem_map.1 he
      obtain ⟨j, hj, hji⟩ := ih (target_mem_ids hk) hki
      exact ⟨j, .epsilon hk hj, hji⟩
    | symbol hs _ ih =>
      subst hi'
      rw [targetsOf_rename hf hi] at hs
      obtain ⟨k, hk, hki⟩ := List.mem_map.1 hs
      obtain ⟨j, hj, hji⟩ := ih (target_mem_ids hk) hki
      exact ⟨j, .symbol hk hj, hji⟩
  · rintro ⟨k, h, rfl⟩
    induction h with
    | stay => exact .stay _
    | epsilon he _ ih =>
      refine .epsilon ?_ (ih (target_mem_ids he))
      rw [targetsOf_rename hf hi]
      exact List.mem_map.2 ⟨_, he, rfl⟩
    | symbol hs _ ih =>
      refine .symbol ?_ (ih (target_mem_ids hs))
      rw [targetsOf_rename hf hi]
      exact List.mem_map.2 ⟨_, hs, rfl⟩

section sets
variable (hS : ∀ i ∈ S, i ∈ m.ids)
include hS

theorem advance_rename (c : Char) :
    (m.rename f).advance (S.image f) c = (m.advance S c).image f := by
  refine IdSet.ext fun j => ?_
  simp only [advance, IdSet.mem_image (S := m.targets _ S), mem_targets]
  refine IdSet.exists_mem_image fun i hi j => ?_
  rw [targetsOf_rename hf (hS i hi)]
  exact List.mem_map

theorem epsilonClosure_rename :
    (m.rename f).epsilonClosure (S.image f) = (m.epsilonClosure S).image f := by
  refine IdSet.ext fun j => ?_
  simp only [IdSet.mem_image (S := m.epsilonClosure S), mem_epsilonClosure]
  exact IdSet.exists_mem_image fun i hi j => path_rename hf (hS i hi)

theorem read_rename (c : Char) : (m.rename f).read (S.image f) c = (m.read S c).image f := by
  rw [read, read, advance_rename hf hS, epsilonClosure_rename hf]
  intro i hi
  obtain ⟨k, _, hk⟩ := mem_targets.1 hi
  exact target_mem_ids hk

theorem successor?_rename (c : Char) :
    (m.rename f).successor? (S.image f) c = (m.successor? S c).map (IdSet.image f) := by
  rw [successor?, successor?, advance_rename hf hS, read_rename hf hS, IdSet.isEmpty_image]
  cases (m.advance S c).isEmpty <;> rfl

end sets

end injective

end Nfa
end RegexAutomata
