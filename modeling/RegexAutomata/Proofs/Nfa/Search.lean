import Mathlib.Logic.Relation
import RegexAutomata.Nfa.Search
import RegexAutomata.Proofs.Nfa.Fragment

/-! The search over a stack ends for every automaton, and it has met exactly what epsilon edges reach.
That is the closure of the ids searched from: the least set that holds them and that no epsilon edge
leaves. -/
namespace RegexAutomata.Nfa
variable {m : Nfa} {X : IdSet} {i j id : Nat} {edges : List Edge}

theorem epsilonEdge_iff : m.EpsilonEdge i j ↔ j ∈ m.targetsOf .epsilon i := mem_targetsOf.symm

namespace Search
variable {w w' : Search} {taken : List Nat}

def pending (m : Nfa) (w : Search) : Nat := m.leaving w.seen + w.stack.length

section follow

theorem mem_seen_meet : j ∈ (w.meet id).seen ↔ j ∈ w.seen ∨ j = id := by
  rw [meet]
  split
  · rename_i h
    exact ⟨.inl, fun hj => hj.elim (fun hj => hj) fun he => he ▸ h⟩
  · rw [IdSet.mem_insert, or_comm]

theorem mem_seen_follow : j ∈ (w.follow edges).seen ↔ j ∈ w.seen ∨ ⟨.epsilon, j⟩ ∈ edges := by
  induction edges generalizing w with
  | nil => simp [follow]
  | cons e edges ih =>
    obtain ⟨label, target⟩ := e
    cases label with
    | symbol c => simp [follow, ih]
    | epsilon => simp [follow, ih, mem_seen_meet, or_assoc]

/-- Every id that is met is put on the stack, and none is put there twice. -/
theorem perm_meet (h : (taken ++ w.stack).Perm w.seen.toList) (id : Nat) :
    (taken ++ (w.meet id).stack).Perm (w.meet id).seen.toList := by
  rw [meet]
  split
  · exact h
  · rename_i hid
    have hfront : (taken ++ id :: w.stack).Perm (id :: (taken ++ w.stack)) := List.perm_middle
    exact (hfront.trans (h.cons id)).trans (IdSet.perm_insert hid).symm

theorem perm_follow (h : (taken ++ w.stack).Perm w.seen.toList) (edges : List Edge) :
    (taken ++ (w.follow edges).stack).Perm (w.follow edges).seen.toList := by
  induction edges generalizing w with
  | nil => exact h
  | cons e edges ih =>
    rw [follow]
    split
    · exact ih (perm_meet h e.target)
    · exact ih h

theorem pending_meet_le (h : m.EpsilonEdge i id) : (w.meet id).pending m ≤ w.pending m := by
  rw [meet]
  split
  · exact Nat.le_refl _
  · rename_i hid
    have hlt : m.leaving (w.seen.insert id) < m.leaving w.seen :=
      leaving_insert_lt (epsilonEdge_iff.1 h) hid
    simp only [pending, List.length_cons]
    omega

theorem pending_follow_le (h : ∀ j, ⟨.epsilon, j⟩ ∈ edges → m.EpsilonEdge i j) :
    (w.follow edges).pending m ≤ w.pending m := by
  induction edges generalizing w with
  | nil => exact Nat.le_refl _
  | cons e edges ih =>
    have htail : ∀ j, ⟨.epsilon, j⟩ ∈ edges → m.EpsilonEdge i j :=
      fun j hj => h j (List.mem_cons_of_mem e hj)
    rw [follow]
    split
    · rename_i hlabel
      have hedge : m.EpsilonEdge i e.target := h e.target (hlabel ▸ List.mem_cons_self)
      exact Nat.le_trans (ih htail) (pending_meet_le hedge)
    · exact ih htail

end follow

section round

theorem round?_eq_none : w.round? m = none ↔ w.stack = [] := by
  rw [round?]
  cases w.stack with
  | nil => simp
  | cons id stack => cases hs : m.state? id <;> simp [hs]

/-- A round takes the id on top and follows the epsilon edges of its state, if it has one. -/
theorem exists_of_round? (h : w.round? m = some (id, w')) :
    ∃ stack edges, w.stack = id :: stack ∧ w' = follow ⟨w.seen, stack⟩ edges ∧
      ∀ j, ⟨.epsilon, j⟩ ∈ edges ↔ m.EpsilonEdge id j := by
  rw [round?] at h
  cases hstack : w.stack with
  | nil => simp [hstack] at h
  | cons top stack =>
    cases hs : m.state? top with
    | none =>
      obtain ⟨rfl, rfl⟩ : top = id ∧ ⟨w.seen, stack⟩ = w' := by simpa [hstack, hs] using h
      exact ⟨stack, [], rfl, rfl, by simp [EpsilonEdge, hs]⟩
    | some s =>
      obtain ⟨rfl, rfl⟩ : top = id ∧ follow ⟨w.seen, stack⟩ s.edges = w' := by
        simpa [hstack, hs] using h
      exact ⟨stack, s.edges, rfl, rfl, by simp [EpsilonEdge, hs]⟩

theorem pending_round?_lt (h : w.round? m = some (id, w')) : w'.pending m < w.pending m := by
  obtain ⟨stack, edges, hstack, rfl, hedges⟩ := exists_of_round? h
  have hle : (follow ⟨w.seen, stack⟩ edges).pending m ≤ (Search.mk w.seen stack).pending m :=
    pending_follow_le fun j hj => (hedges j).1 hj
  refine Nat.lt_of_le_of_lt hle ?_
  simp [pending, hstack]

structure Sound (m : Nfa) (X : IdSet) (taken : List Nat) (w : Search) : Prop where
  included : ∀ i ∈ X, i ∈ w.seen
  reached : ∀ j ∈ w.seen, ∃ i ∈ X, Relation.ReflTransGen m.EpsilonEdge i j
  once : (taken ++ w.stack).Perm w.seen.toList
  followed : ∀ i ∈ taken, ∀ j, m.EpsilonEdge i j → j ∈ w.seen

theorem sound_start (m : Nfa) (X : IdSet) : Sound m X [] (start X) where
  included := fun _ hi => hi
  reached := fun j hj => ⟨j, hj, .refl⟩
  once := List.reverse_perm X.toList
  followed := by
    intro i hi
    cases hi

theorem Sound.round (h : Sound m X taken w) (hround : w.round? m = some (id, w')) :
    Sound m X (taken ++ [id]) w' := by
  obtain ⟨stack, edges, hstack, rfl, hedges⟩ := exists_of_round? hround
  have honce : (taken ++ [id] ++ stack).Perm w.seen.toList := by
    rw [List.append_assoc, List.singleton_append, ← hstack]
    exact h.once
  have hid : id ∈ w.seen := honce.mem_iff.1 (by simp)
  refine ⟨?_, ?_, perm_follow (w := ⟨w.seen, stack⟩) honce edges, ?_⟩
  · exact fun i hi => mem_seen_follow.2 (.inl (h.included i hi))
  · intro j hj
    rcases mem_seen_follow.1 hj with hj | hj
    · exact h.reached j hj
    · obtain ⟨i, hi, hpath⟩ := h.reached id hid
      exact ⟨i, hi, hpath.tail ((hedges j).1 hj)⟩
  · intro i hi j hij
    rcases List.mem_append.1 hi with hi | hi
    · exact mem_seen_follow.2 (.inl (h.followed i hi j hij))
    · rw [List.mem_singleton.1 hi] at hij
      exact mem_seen_follow.2 (.inr ((hedges j).2 hij))

end round

/-- There are no more rounds than ids and edges can bring about. -/
theorem exists_ends (n : Nat) (hn : w.pending m ≤ n) (h : Sound m X taken w) :
    ∃ rest w', Ends m w rest w' ∧ w'.stack = [] ∧ Sound m X (taken ++ rest) w' := by
  induction n generalizing w taken with
  | zero =>
    have hstack : w.stack = [] := List.length_eq_zero_iff.1 (by rw [pending] at hn; omega)
    exact ⟨[], w, .empty (round?_eq_none.2 hstack), hstack, by rwa [List.append_nil]⟩
  | succ n ih =>
    cases hround : w.round? m with
    | none =>
      exact ⟨[], w, .empty hround, round?_eq_none.1 hround, by rwa [List.append_nil]⟩
    | some r =>
      obtain ⟨id, w'⟩ := r
      have hlt := pending_round?_lt hround
      obtain ⟨rest, w'', hends, hstack, hsound⟩ := ih (by omega) (h.round hround)
      refine ⟨id :: rest, w'', .round hround hends, hstack, ?_⟩
      rwa [List.append_assoc, List.singleton_append] at hsound

/-- When the stack is empty, the set met is what epsilon edges reach. -/
theorem Sound.mem_seen_iff (h : Sound m X taken w) (hstack : w.stack = []) :
    j ∈ w.seen ↔ ∃ i ∈ X, Relation.ReflTransGen m.EpsilonEdge i j := by
  have honce : taken.Perm w.seen.toList := by
    have honce := h.once
    rwa [hstack, List.append_nil] at honce
  constructor
  · exact h.reached j
  · rintro ⟨i, hi, hpath⟩
    induction hpath with
    | refl => exact h.included i hi
    | tail _ hedge ih => exact h.followed _ (honce.mem_iff.2 ih) _ hedge

end Search

theorem mem_epsilonClosure_iff :
    j ∈ m.epsilonClosure X ↔ ∃ i ∈ X, Relation.ReflTransGen m.EpsilonEdge i j := by
  constructor
  · refine epsilonClosure_subset
      (P := fun j => ∃ i ∈ X, Relation.ReflTransGen m.EpsilonEdge i j)
      (fun i hi => ⟨i, hi, .refl⟩) ?_
    rintro j ⟨i, hi, hpath⟩ k hk
    exact ⟨i, hi, hpath.tail (epsilonEdge_iff.2 hk)⟩
  · rintro ⟨i, hi, hpath⟩
    induction hpath with
    | refl => exact subset_epsilonClosure hi
    | tail _ hedge ih => exact epsilonClosure_closed ih (epsilonEdge_iff.1 hedge)

/-- The search ends, takes every id that it meets from the stack once, and comes to the closure. This
holds what epsilon edges reach from `X`: it is the least set that holds `X`, ids without a state
included, and that no epsilon edge leaves. -/
theorem exists_ends_epsilonClosure (m : Nfa) (X : IdSet) :
    (∃ taken w, Search.Ends m (.start X) taken w ∧ w.seen = m.epsilonClosure X ∧
      taken.Perm (m.epsilonClosure X).toList) ∧
    (∀ j, j ∈ m.epsilonClosure X ↔ ∃ i ∈ X, Relation.ReflTransGen m.EpsilonEdge i j) ∧
    (∀ i ∈ X, i ∈ m.epsilonClosure X) ∧
    (∀ i ∈ m.epsilonClosure X, ∀ j, m.EpsilonEdge i j → j ∈ m.epsilonClosure X) ∧
    ∀ S : Set Nat, (∀ i ∈ X, i ∈ S) → (∀ i ∈ S, ∀ j, m.EpsilonEdge i j → j ∈ S) →
      ∀ j ∈ m.epsilonClosure X, j ∈ S := by
  refine ⟨?_, fun j => mem_epsilonClosure_iff, fun i hi => subset_epsilonClosure hi, ?_, ?_⟩
  · obtain ⟨taken, w, hends, hstack, hsound⟩ :=
      Search.exists_ends _ (Nat.le_refl _) (Search.sound_start m X)
    have hseen : w.seen = m.epsilonClosure X :=
      IdSet.ext fun j => (hsound.mem_seen_iff hstack).trans mem_epsilonClosure_iff.symm
    have honce := hsound.once
    rw [hstack, List.append_nil, List.nil_append, hseen] at honce
    exact ⟨taken, w, hends, hseen, honce⟩
  · exact fun i hi j hedge => epsilonClosure_closed hi (epsilonEdge_iff.1 hedge)
  · intro S hX hS j hj
    exact epsilonClosure_subset hX (fun i hi j hij => hS i hi j (epsilonEdge_iff.2 hij)) hj

def knot : Nfa where
  states := .ofList
    [⟨0, true, false, [⟨.symbol 'a', 2⟩, ⟨.epsilon, 1⟩, ⟨.epsilon, 5⟩]⟩,
      ⟨1, false, false, [⟨.epsilon, 0⟩]⟩, ⟨2, false, true, []⟩]
  entry := 0
  exit := 2

theorem exists_ends_epsilonClosure_knot :
    (∃ taken w, Search.Ends knot (.start (.ofList [1, 9])) taken w ∧
      w.seen = .ofList [0, 1, 5, 9] ∧ taken.length = 4) ∧
    ¬ ∃ i ∈ (.ofList [1, 9] : IdSet), Relation.ReflTransGen knot.EpsilonEdge i 2 := by
  have hclosure : knot.epsilonClosure (.ofList [1, 9]) = .ofList [0, 1, 5, 9] := by decide
  obtain ⟨⟨taken, w, hends, hseen, honce⟩, hmem, _⟩ :=
    exists_ends_epsilonClosure knot (.ofList [1, 9])
  rw [hclosure] at hseen honce
  refine ⟨⟨taken, w, hends, hseen, honce.length_eq⟩, ?_⟩
  rw [← hmem, hclosure]
  decide

end RegexAutomata.Nfa
