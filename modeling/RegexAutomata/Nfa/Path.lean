import RegexAutomata.Keyed.Lemmas
import RegexAutomata.Nfa.Reach

/-! Paths of a nondeterministic automaton and the words they spell. The sets of states under
reading are exactly the ends of paths; no closure is cut short by its bound on rounds. -/
namespace RegexAutomata.Nfa

inductive Path (m : Nfa) : Nat → List Char → Nat → Prop
  | stay (i : Nat) : Path m i [] i
  | epsilon {i j k : Nat} {w : List Char} :
      j ∈ m.targetsOf .epsilon i → Path m j w k → Path m i w k
  | symbol {i j k : Nat} {c : Char} {w : List Char} :
      j ∈ m.targetsOf (.symbol c) i → Path m j w k → Path m i (c :: w) k

def Spells (m : Nfa) (w : List Char) : Prop :=
  ∃ i j, m.start? = some i ∧ m.Path i w j ∧ m.isFinal j = true

variable {m : Nfa} {i j k : Nat} {u v w : List Char} {S T : IdSet}

theorem Path.append (h : m.Path i u j) (h' : m.Path j v k) : m.Path i (u ++ v) k := by
  induction h with
  | stay => exact h'
  | epsilon he _ ih => exact .epsilon he (ih h')
  | symbol hs _ ih => exact .symbol hs (ih h')

theorem mem_targets {l : Label} : j ∈ m.targets l S ↔ ∃ i ∈ S, j ∈ m.targetsOf l i := by
  rw [targets, IdSet.mem_ofList, List.mem_flatMap]
  exact Iff.rfl

theorem mem_edgeTargets {l : Label} (h : j ∈ m.targetsOf l i) : j ∈ m.edgeTargets := by
  rw [targetsOf] at h
  cases hs : m.state? i with
  | none => simp [hs] at h
  | some s =>
    simp only [hs, State.targets, List.mem_filterMap] at h
    obtain ⟨e, he, hj⟩ := h
    have ht : e.target = j := by
      by_cases hl : e.label = l
      · simpa [hl] using hj
      · simp [hl] at hj
    exact List.mem_flatMap.2 ⟨s, List.mem_of_find?_eq_some hs, List.mem_map.2 ⟨e, he, ht⟩⟩

theorem state_mem_ids {s : State} (h : m.state? i = some s) : i ∈ m.ids := by
  obtain ⟨hs, rfl⟩ := Keyed.find?_eq_some_iff.1 h
  exact IdSet.mem_ofList.2 (List.mem_flatMap.2 ⟨s, hs, List.mem_cons_self⟩)

theorem target_mem_ids {l : Label} (h : j ∈ m.targetsOf l i) : j ∈ m.ids := by
  obtain ⟨s, hs, hj⟩ := List.mem_flatMap.1 (mem_edgeTargets h)
  exact IdSet.mem_ofList.2 (List.mem_flatMap.2 ⟨s, hs, List.mem_cons_of_mem _ hj⟩)

def leaving (m : Nfa) (S : IdSet) : Nat :=
  (m.edgeTargets.filter fun j => decide (j ∉ S)).length

theorem leaving_le : m.leaving S ≤ m.edgeCount := List.length_filter_le ..

private theorem length_filter_lt {p q : Nat → Bool} {l : List Nat} (hpq : ∀ x, p x → q x)
    (hj : j ∈ l) (hp : p j = false) (hq : q j = true) :
    (l.filter p).length < (l.filter q).length := by
  induction l with
  | nil => simp at hj
  | cons x l ih =>
    by_cases hx : x = j
    · have hle : (l.filter p).length ≤ (l.filter q).length := by
        rw [← List.countP_eq_length_filter, ← List.countP_eq_length_filter]
        exact List.countP_mono_left fun x _ => hpq x
      subst hx
      simp only [List.filter_cons, hp, hq, if_true, Bool.false_eq_true, if_false,
        List.length_cons]
      omega
    · have hlt := ih ((List.mem_cons.1 hj).resolve_left fun h => hx h.symm)
      cases hpx : p x with
      | true => simp [hpx, hpq x hpx, hlt]
      | false => cases hqx : q x <;> simp [hpx, hqx] <;> omega

theorem leaving_union_lt {l : Label} (h : j ∈ m.targetsOf l i) (hS : ¬ j ∈ S) (hT : j ∈ T) :
    m.leaving (S.union T) < m.leaving S := by
  refine length_filter_lt (fun x hx => ?_) (mem_edgeTargets h) ?_ (by simpa using hS)
  · simp only [IdSet.mem_union, decide_eq_true_eq] at hx ⊢
    exact fun h => hx (.inl h)
  · simp [hT]

theorem leaving_insert_lt {l : Label} (h : j ∈ m.targetsOf l i) (hS : ¬ j ∈ S) :
    m.leaving (S.insert j) < m.leaving S := by
  have hunion : S.insert j = S.union (.ofList [j]) := IdSet.ext fun k => by simp [or_comm]
  rw [hunion]
  exact leaving_union_lt h hS (IdSet.mem_ofList.2 (List.mem_singleton_self j))

theorem subset_spread (n : Nat) (front seen : IdSet) (h : i ∈ seen) :
    i ∈ m.spread n front seen := by
  induction n generalizing front seen with
  | zero => exact h
  | succ n ih =>
    rw [spread]
    split
    · exact h
    · exact ih _ _ (IdSet.mem_union.2 (.inl h))

/-- A set that no epsilon edge leaves holds all that is spread from inside. -/
theorem spread_subset {P : Nat → Prop} (hP : ∀ i, P i → ∀ j ∈ m.targetsOf .epsilon i, P j)
    (n : Nat) (front seen : IdSet) (hf : ∀ i ∈ front, P i) (hs : ∀ i ∈ seen, P i)
    (h : i ∈ m.spread n front seen) : P i := by
  induction n generalizing front seen with
  | zero => exact hs i h
  | succ n ih =>
    rw [spread] at h
    have hnext : ∀ j ∈ (m.targets .epsilon front).filter (fun id => decide (id ∉ seen)), P j := by
      intro j hj
      obtain ⟨i, hi, hij⟩ := mem_targets.1 (Keyed.mem_filter.1 hj).1
      exact hP i (hf i hi) j hij
    split at h
    · exact hs i h
    · exact ih _ _ hnext (fun j hj => (IdSet.mem_union.1 hj).elim (hs j) (hnext j)) h

theorem spread_closed (n : Nat) (front seen : IdSet) (hn : m.leaving seen ≤ n)
    (hs : ∀ i ∈ seen, ¬ i ∈ front → ∀ j ∈ m.targetsOf .epsilon i, j ∈ seen)
    (hi : i ∈ m.spread n front seen) (hj : j ∈ m.targetsOf .epsilon i) :
    j ∈ m.spread n front seen := by
  induction n generalizing front seen with
  | zero =>
    rw [spread] at hi ⊢
    by_cases h : j ∈ seen
    · exact h
    · have hempty := List.length_eq_zero_iff.1 (Nat.le_zero.1 hn)
      have hall := List.filter_eq_nil_iff.1 hempty j (mem_edgeTargets hj)
      simp [h] at hall
  | succ n ih =>
    rw [spread] at hi ⊢
    have hnext : ∀ i ∈ front, ∀ j ∈ m.targetsOf .epsilon i, ¬ j ∈ seen →
        j ∈ (m.targets .epsilon front).filter (fun id => decide (id ∉ seen)) := by
      intro i hi j hj hjs
      exact Keyed.mem_filter.2 ⟨mem_targets.2 ⟨i, hi, hj⟩, decide_eq_true hjs⟩
    by_cases he : ((m.targets .epsilon front).filter (fun id => decide (id ∉ seen))).isEmpty = true
    · simp only [he, if_true] at hi ⊢
      by_cases hif : i ∈ front
      · by_cases hjs : j ∈ seen
        · exact hjs
        · exact (IdSet.isEmpty_iff.1 he j (hnext i hif j hj hjs)).elim
      · exact hs i hi hif j hj
    · simp only [he, Bool.false_eq_true, if_false] at hi ⊢
      refine ih _ _ ?_ ?_ hi
      · have hex : ∃ k, k ∈ (m.targets .epsilon front).filter (fun id => decide (id ∉ seen)) := by
          refine Classical.byContradiction fun hne => he (IdSet.isEmpty_iff.2 fun k hk => ?_)
          exact hne ⟨k, hk⟩
        obtain ⟨k, hk⟩ := hex
        obtain ⟨hkt, hks⟩ := Keyed.mem_filter.1 hk
        obtain ⟨i', _, hik⟩ := mem_targets.1 hkt
        have := leaving_union_lt hik (of_decide_eq_true hks) hk
        omega
      · intro i' hi' hif' j' hj'
        rw [IdSet.mem_union] at hi' ⊢
        by_cases hjs : j' ∈ seen
        · exact .inl hjs
        · refine .inr ?_
          rcases hi' with his | hin
          · by_cases hif : i' ∈ front
            · exact hnext i' hif j' hj' hjs
            · exact (hjs (hs i' his hif j' hj')).elim
          · exact (hif' hin).elim

theorem subset_epsilonClosure (h : i ∈ S) : i ∈ m.epsilonClosure S := subset_spread _ _ _ h

theorem epsilonClosure_closed (hi : i ∈ m.epsilonClosure S) (hj : j ∈ m.targetsOf .epsilon i) :
    j ∈ m.epsilonClosure S :=
  spread_closed _ _ _ leaving_le (fun _ hi hn => (hn hi).elim) hi hj

theorem epsilonClosure_subset {P : Nat → Prop} (hS : ∀ i ∈ S, P i)
    (hP : ∀ i, P i → ∀ j ∈ m.targetsOf .epsilon i, P j) (h : i ∈ m.epsilonClosure S) : P i :=
  spread_subset hP _ _ _ hS hS h

theorem mem_epsilonClosure : j ∈ m.epsilonClosure S ↔ ∃ i ∈ S, m.Path i [] j := by
  constructor
  · refine epsilonClosure_subset (P := fun j => ∃ i ∈ S, m.Path i [] j)
      (fun i hi => ⟨i, hi, .stay i⟩) ?_
    rintro j ⟨i, hi, hp⟩ k hk
    exact ⟨i, hi, hp.append (.epsilon hk (.stay k))⟩
  · rintro ⟨i, hi, hp⟩
    replace hi := subset_epsilonClosure (m := m) hi
    generalize hw : [] = w at hp
    induction hp with
    | stay => exact hi
    | epsilon he _ ih => exact ih (epsilonClosure_closed hi he) hw
    | symbol => simp at hw

end RegexAutomata.Nfa
