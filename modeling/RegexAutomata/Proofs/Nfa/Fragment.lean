import RegexAutomata.Nfa.Path
import RegexAutomata.Nfa.Thompson

/-! Automata with one way in and one way out. Each combinator is described by its states, its
edges and its final states, and joins fragments without common ids to a fragment. -/
namespace RegexAutomata.Nfa
variable {m l r : Nfa} {a n i j k : Nat} {lab lab' : Label}

def Has (m : Nfa) (i : Nat) : Prop := (m.state? i).isSome = true

theorem id_of_state? {s : State} (h : m.state? i = some s) : s.id = i :=
  (Keyed.find?_eq_some_iff.1 h).2

theorem Has.of_mem {s : State} (h : s ∈ m.states) : m.Has s.id :=
  Option.isSome_of_eq_some (Keyed.mem_iff_find?.1 h)

theorem mem_targetsOf :
    j ∈ m.targetsOf lab i ↔ ∃ s, m.state? i = some s ∧ ⟨lab, j⟩ ∈ s.edges := by
  rw [targetsOf]
  cases h : m.state? i with
  | none => simp
  | some s =>
    simp only [State.targets, List.mem_filterMap, Option.ite_none_right_eq_some,
      Option.some.injEq, exists_eq_left']
    constructor
    · intro h
      obtain ⟨e, he, hlabel, htarget⟩ := h
      subst hlabel htarget
      exact he
    · intro he
      exact ⟨_, he, rfl, rfl⟩

theorem Has.of_target (h : j ∈ m.targetsOf lab i) : m.Has i := by
  obtain ⟨s, hs, _⟩ := mem_targetsOf.1 h
  rw [Has, hs]
  rfl

theorem mem_ids : i ∈ m.ids ↔ m.Has i ∨ ∃ lab k, i ∈ m.targetsOf lab k := by
  constructor
  · intro hi
    obtain ⟨s, hs, hi⟩ := List.mem_flatMap.1 (IdSet.mem_ofList.1 hi)
    have hstate : m.state? s.id = some s := Keyed.find?_eq_some_iff.2 ⟨hs, rfl⟩
    obtain rfl | hi := List.mem_cons.1 hi
    · exact .inl (Option.isSome_of_eq_some hstate)
    · obtain ⟨e, he, rfl⟩ := List.mem_map.1 hi
      exact .inr ⟨e.label, s.id, mem_targetsOf.2 ⟨s, hstate, he⟩⟩
  · rintro (hi | ⟨lab, k, hi⟩)
    · obtain ⟨s, hs⟩ := Option.isSome_iff_exists.1 hi
      exact state_mem_ids hs
    · exact target_mem_ids hi

theorem start?_eq_some_iff : m.start? = some i ↔ i = m.entry ∧ m.Has i := by
  rw [start?, Option.map_eq_some_iff]
  constructor
  · intro ⟨s, hs, hi⟩
    subst hi
    have hid : s.id = m.entry := id_of_state? hs
    exact ⟨hid, by rw [Has, hid, hs]; rfl⟩
  · intro ⟨he, hi⟩
    subst he
    obtain ⟨s, hs⟩ := Option.isSome_iff_exists.1 hi
    exact ⟨s, hs, id_of_state? hs⟩

section ends

theorem state?_ends (n i : Nat) : (ends n).state? i =
    if n = i then some ⟨n, true, false, []⟩
    else if n + 1 = i then some ⟨n + 1, false, true, []⟩ else none := by
  rw [state?, ends, Keyed.find?_ofList]
  by_cases h : n = i <;> by_cases h' : n + 1 = i <;> simp [h, h']

theorem has_ends : (ends n).Has i ↔ i = n ∨ i = n + 1 := by
  rw [Has, state?_ends, eq_comm (a := i) (b := n), eq_comm (a := i) (b := n + 1)]
  by_cases h : n = i <;> by_cases h' : n + 1 = i <;> simp [h, h']

theorem not_mem_targetsOf_ends : ¬ j ∈ (ends n).targetsOf lab i := by
  rw [mem_targetsOf, state?_ends]
  by_cases h : n = i <;> by_cases h' : n + 1 = i <;> simp [h, h']

theorem isFinal_ends : (ends n).isFinal i = true ↔ i = n + 1 := by
  rw [isFinal, state?_ends, eq_comm (a := i) (b := n + 1)]
  by_cases h : n = i
  · simp [h]
  · by_cases h' : n + 1 = i <;> simp [h, h']

end ends

section link

theorem state?_link (m : Nfa) (a : Nat) (lab : Label) (j i : Nat) : (m.link a lab j).state? i =
    if i = a then (m.state? i).map (fun s => { s with edges := s.edges ++ [⟨lab, j⟩] })
    else m.state? i :=
  Keyed.find?_modify m.states a (fun s => { s with edges := s.edges ++ [⟨lab, j⟩] })
    (fun _ => rfl) i

theorem has_link : (m.link a lab j).Has i ↔ m.Has i := by
  rw [Has, state?_link]
  by_cases h : i = a <;> simp [h, Has]

theorem mem_targetsOf_link : k ∈ (m.link a lab j).targetsOf lab' i ↔
    k ∈ m.targetsOf lab' i ∨ (m.Has a ∧ i = a ∧ lab' = lab ∧ k = j) := by
  rw [mem_targetsOf, mem_targetsOf, state?_link, Has]
  by_cases h : i = a
  · subst h
    cases m.state? i <;> simp
  · simp [h]

theorem isFinal_link : (m.link a lab j).isFinal i = m.isFinal i := by
  rw [isFinal, isFinal, state?_link]
  by_cases h : i = a <;> cases m.state? i <;> simp [h]

end link

section interior

def interior (m : Nfa) : Nfa := { m with states := m.inner }

theorem state?_interior (m : Nfa) (i : Nat) : m.interior.state? i = (m.state? i).map fun s =>
    { s with isStart := s.isStart && i != m.entry, isFinal := s.isFinal && i != m.exit } := by
  rw [state?, interior, inner, Keyed.find?_modify, Keyed.find?_modify, state?]
  cases m.states.find? i with
  | none => simp
  | some s =>
    obtain ⟨id, isStart, isFinal, edges⟩ := s
    by_cases h : i = m.entry <;> by_cases h' : i = m.exit <;> simp_all

theorem has_interior : m.interior.Has i ↔ m.Has i := by
  rw [Has, state?_interior, Option.isSome_map, Has]

theorem mem_targetsOf_interior : j ∈ m.interior.targetsOf lab i ↔ j ∈ m.targetsOf lab i := by
  rw [mem_targetsOf, mem_targetsOf, state?_interior]
  cases m.state? i <;> simp

theorem isFinal_interior : m.interior.isFinal i = true ↔ m.isFinal i = true ∧ i ≠ m.exit := by
  rw [isFinal, isFinal, state?_interior]
  cases m.state? i <;> simp

end interior

section absorb

def absorb (l r : Nfa) : Nfa := { l with states := l.states.union r.states }

theorem state?_absorb (l r : Nfa) (i : Nat) :
    (l.absorb r).state? i = (r.state? i).or (l.state? i) :=
  Keyed.find?_union ..

theorem has_absorb : (l.absorb r).Has i ↔ l.Has i ∨ r.Has i := by
  rw [Has, state?_absorb, Option.isSome_or, Bool.or_eq_true, or_comm, Has, Has]

theorem state?_absorb_of_disjoint (h : ∀ i, l.Has i → ¬ r.Has i) {s : State} :
    (l.absorb r).state? i = some s ↔ l.state? i = some s ∨ r.state? i = some s := by
  have hi := h i
  rw [state?_absorb]
  rw [Has, Has] at hi
  cases hl : l.state? i <;> cases hr : r.state? i <;> simp_all

theorem mem_targetsOf_absorb (h : ∀ i, l.Has i → ¬ r.Has i) :
    j ∈ (l.absorb r).targetsOf lab i ↔ j ∈ l.targetsOf lab i ∨ j ∈ r.targetsOf lab i := by
  simp only [mem_targetsOf, state?_absorb_of_disjoint h, or_and_right, exists_or]

theorem isFinal_eq_true_iff : m.isFinal i = true ↔ ∃ s, m.state? i = some s ∧ s.isFinal = true := by
  rw [isFinal, Option.any_eq_true]

theorem isFinal_absorb (h : ∀ i, l.Has i → ¬ r.Has i) :
    (l.absorb r).isFinal i = true ↔ l.isFinal i = true ∨ r.isFinal i = true := by
  simp only [isFinal_eq_true_iff, state?_absorb_of_disjoint h, or_and_right, exists_or]

end absorb

section combinators

theorem has_symbol {c : Char} : (symbol n c).Has i ↔ i = n ∨ i = n + 1 := by
  rw [symbol, has_link, has_ends]

theorem mem_targetsOf_symbol {c : Char} :
    j ∈ (symbol n c).targetsOf lab i ↔ i = n ∧ lab = .symbol c ∧ j = n + 1 := by
  rw [symbol, mem_targetsOf_link]
  simp [not_mem_targetsOf_ends, has_ends]

theorem isFinal_symbol {c : Char} : (symbol n c).isFinal i = true ↔ i = n + 1 := by
  rw [symbol, isFinal_link, isFinal_ends]

theorem ends_disjoint (hn : ¬ m.Has n) (hn' : ¬ m.Has (n + 1)) :
    ∀ i, (ends n).Has i → ¬ m.interior.Has i := by
  intro i hi
  rw [has_interior]
  cases has_ends.1 hi with
  | inl h => exact h ▸ hn
  | inr h => exact h ▸ hn'

theorem star_eq (m : Nfa) (n : Nat) : m.star n =
    (((((ends n).absorb m.interior).link n .epsilon m.entry).link n .epsilon (n + 1)).link
      m.exit .epsilon (n + 1)).link m.exit .epsilon m.entry := rfl

theorem has_star : (m.star n).Has i ↔ i = n ∨ i = n + 1 ∨ m.Has i := by
  rw [star_eq, has_link, has_link, has_link, has_link, has_absorb, has_ends, has_interior,
    or_assoc]

theorem mem_targetsOf_star (hn : ¬ m.Has n) (hn' : ¬ m.Has (n + 1)) (hexit : m.Has m.exit) :
    j ∈ (m.star n).targetsOf lab i ↔ j ∈ m.targetsOf lab i ∨
      ((i = n ∨ i = m.exit) ∧ lab = .epsilon ∧ (j = m.entry ∨ j = n + 1)) := by
  rw [star_eq]
  simp only [mem_targetsOf_link, has_link, has_absorb, mem_targetsOf_absorb (ends_disjoint hn hn'),
    mem_targetsOf_interior, not_mem_targetsOf_ends, has_ends, has_interior, hexit]
  grind

theorem isFinal_star (hn : ¬ m.Has n) (hn' : ¬ m.Has (n + 1)) :
    (m.star n).isFinal i = true ↔ i = n + 1 ∨ (m.isFinal i = true ∧ i ≠ m.exit) := by
  rw [star_eq, isFinal_link, isFinal_link, isFinal_link, isFinal_link,
    isFinal_absorb (ends_disjoint hn hn'), isFinal_ends, isFinal_interior]

theorem union_eq (l r : Nfa) (n : Nat) : l.union n r =
    ((((((ends n).absorb l.interior).absorb r.interior).link n .epsilon l.entry).link
      n .epsilon r.entry).link l.exit .epsilon (n + 1)).link r.exit .epsilon (n + 1) := rfl

theorem has_union : (l.union n r).Has i ↔ i = n ∨ i = n + 1 ∨ l.Has i ∨ r.Has i := by
  rw [union_eq, has_link, has_link, has_link, has_link, has_absorb, has_absorb, has_ends,
    has_interior, has_interior, or_assoc, or_assoc]

theorem absorb_disjoint (hn : ¬ r.Has n) (hn' : ¬ r.Has (n + 1)) (h : ∀ i, l.Has i → ¬ r.Has i) :
    ∀ i, ((ends n).absorb l.interior).Has i → ¬ r.interior.Has i := by
  intro i hi
  cases has_absorb.1 hi with
  | inl hends => exact ends_disjoint hn hn' i hends
  | inr hl =>
    rw [has_interior] at hl ⊢
    exact h i hl

theorem mem_targetsOf_union (hl : ¬ l.Has n) (hl' : ¬ l.Has (n + 1)) (hr : ¬ r.Has n)
    (hr' : ¬ r.Has (n + 1)) (h : ∀ i, l.Has i → ¬ r.Has i) (hlexit : l.Has l.exit)
    (hrexit : r.Has r.exit) :
    j ∈ (l.union n r).targetsOf lab i ↔ j ∈ l.targetsOf lab i ∨ j ∈ r.targetsOf lab i ∨
      (i = n ∧ lab = .epsilon ∧ (j = l.entry ∨ j = r.entry)) ∨
      ((i = l.exit ∨ i = r.exit) ∧ lab = .epsilon ∧ j = n + 1) := by
  rw [union_eq]
  simp only [mem_targetsOf_link, has_link, has_absorb, mem_targetsOf_interior,
    mem_targetsOf_absorb (absorb_disjoint hr hr' h), mem_targetsOf_absorb (ends_disjoint hl hl'),
    not_mem_targetsOf_ends, has_ends, has_interior, hlexit, hrexit]
  grind

theorem isFinal_union (hl : ¬ l.Has n) (hl' : ¬ l.Has (n + 1)) (hr : ¬ r.Has n)
    (hr' : ¬ r.Has (n + 1)) (h : ∀ i, l.Has i → ¬ r.Has i) :
    (l.union n r).isFinal i = true ↔ i = n + 1 ∨ (l.isFinal i = true ∧ i ≠ l.exit) ∨
      (r.isFinal i = true ∧ i ≠ r.exit) := by
  rw [union_eq, isFinal_link, isFinal_link, isFinal_link, isFinal_link,
    isFinal_absorb (absorb_disjoint hr hr' h), isFinal_absorb (ends_disjoint hl hl'),
    isFinal_ends, isFinal_interior, isFinal_interior, or_assoc]

def State.extended (moved : List Edge) (s : State) : State :=
  { s with isFinal := false, edges := s.edges ++ moved }

theorem State.id_extended (moved : List Edge) (s : State) : (s.extended moved).id = s.id := rfl

def joint (l r : Nfa) : Nfa :=
  let moved := match r.state? r.entry with
    | some s => s.edges
    | none => []
  { l with states := l.states.modify l.exit (State.extended moved) (State.id_extended moved) }

def tail (r : Nfa) : Nfa := { r with states := r.states.erase r.entry }

theorem concat_eq (l r : Nfa) : l.concat r = { (l.joint r).absorb r.tail with exit := r.exit } :=
  rfl

def entryEdges (m : Nfa) : List Edge := ((m.state? m.entry).map State.edges).getD []

theorem mem_entryEdges : ⟨lab, j⟩ ∈ m.entryEdges ↔ j ∈ m.targetsOf lab m.entry := by
  rw [mem_targetsOf, entryEdges]
  cases m.state? m.entry <;> simp

theorem states_joint (l r : Nfa) : (l.joint r).states =
    l.states.modify l.exit (State.extended r.entryEdges) (State.id_extended _) := by
  rw [joint, entryEdges]
  cases r.state? r.entry <;> rfl

theorem state?_joint (l r : Nfa) (i : Nat) : (l.joint r).state? i =
    if i = l.exit then (l.state? i).map (State.extended r.entryEdges) else l.state? i := by
  rw [state?, states_joint, Keyed.find?_modify, state?]

theorem has_joint : (l.joint r).Has i ↔ l.Has i := by
  rw [Has, state?_joint]
  by_cases h : i = l.exit <;> simp [h, Has]

theorem mem_targetsOf_joint (hexit : l.Has l.exit) : j ∈ (l.joint r).targetsOf lab i ↔
    j ∈ l.targetsOf lab i ∨ (i = l.exit ∧ j ∈ r.targetsOf lab r.entry) := by
  rw [← mem_entryEdges, mem_targetsOf, mem_targetsOf, state?_joint]
  by_cases h : i = l.exit
  · subst h
    obtain ⟨s, hexit⟩ := Option.isSome_iff_exists.1 hexit
    simp [hexit, State.extended]
  · simp [h]

theorem isFinal_joint : (l.joint r).isFinal i = true ↔ l.isFinal i = true ∧ i ≠ l.exit := by
  rw [isFinal, isFinal, state?_joint]
  by_cases h : i = l.exit <;> cases l.state? i <;> simp [h, State.extended]

theorem state?_tail (r : Nfa) (i : Nat) :
    r.tail.state? i = if i = r.entry then none else r.state? i := Keyed.find?_erase ..

theorem has_tail : r.tail.Has i ↔ r.Has i ∧ i ≠ r.entry := by
  rw [Has, state?_tail]
  by_cases h : i = r.entry <;> simp [h, Has]

theorem mem_targetsOf_tail :
    j ∈ r.tail.targetsOf lab i ↔ j ∈ r.targetsOf lab i ∧ i ≠ r.entry := by
  rw [mem_targetsOf, mem_targetsOf, state?_tail]
  by_cases h : i = r.entry <;> simp [h]

theorem isFinal_tail : r.tail.isFinal i = true ↔ r.isFinal i = true ∧ i ≠ r.entry := by
  rw [isFinal, isFinal, state?_tail]
  by_cases h : i = r.entry <;> simp [h]

theorem joint_disjoint (h : ∀ i, l.Has i → ¬ r.Has i) :
    ∀ i, (l.joint r).Has i → ¬ r.tail.Has i := by
  intro i hi ht
  exact h i (has_joint.1 hi) (has_tail.1 ht).1

theorem has_concat : (l.concat r).Has i ↔ l.Has i ∨ (r.Has i ∧ i ≠ r.entry) := by
  rw [concat_eq]
  exact has_absorb.trans (or_congr has_joint has_tail)

theorem mem_targetsOf_concat (h : ∀ i, l.Has i → ¬ r.Has i) (hexit : l.Has l.exit) :
    j ∈ (l.concat r).targetsOf lab i ↔ j ∈ l.targetsOf lab i ∨
      (i = l.exit ∧ j ∈ r.targetsOf lab r.entry) ∨ (j ∈ r.targetsOf lab i ∧ i ≠ r.entry) := by
  rw [concat_eq, ← or_assoc]
  exact (mem_targetsOf_absorb (joint_disjoint h)).trans
    (or_congr (mem_targetsOf_joint hexit) mem_targetsOf_tail)

theorem isFinal_concat (h : ∀ i, l.Has i → ¬ r.Has i) :
    (l.concat r).isFinal i = true ↔
      (l.isFinal i = true ∧ i ≠ l.exit) ∨ (r.isFinal i = true ∧ i ≠ r.entry) := by
  rw [concat_eq]
  exact (isFinal_absorb (joint_disjoint h)).trans (or_congr isFinal_joint isFinal_tail)

end combinators

/-- One way in, which no edge leads back to, and one way out, which no edge leaves. -/
structure Fragment (m : Nfa) : Prop where
  has_entry : m.Has m.entry
  has_exit : m.Has m.exit
  entry_ne_exit : m.entry ≠ m.exit
  has_target : ∀ {lab i j}, j ∈ m.targetsOf lab i → m.Has j
  target_ne_entry : ∀ {lab i j}, j ∈ m.targetsOf lab i → j ≠ m.entry
  not_mem_exit : ∀ lab j, ¬ j ∈ m.targetsOf lab m.exit
  isFinal_iff : ∀ {i}, m.isFinal i = true ↔ i = m.exit

theorem Fragment.start?_eq (hm : Fragment m) : m.start? = some m.entry :=
  start?_eq_some_iff.2 ⟨rfl, hm.has_entry⟩

theorem Fragment.accept?_eq (hm : Fragment m) : m.accept? = some m.exit := by
  obtain ⟨s, hs⟩ := Option.isSome_iff_exists.1 hm.has_exit
  rw [accept?, hs, Option.map_some, id_of_state? hs]

/-- Edges lead to states only, so that every id that occurs belongs to one. -/
theorem Fragment.has_of_mem_ids (hm : Fragment m) (hi : i ∈ m.ids) : m.Has i := by
  obtain hi | ⟨lab, k, hi⟩ := mem_ids.1 hi
  · exact hi
  · exact hm.has_target hi

theorem fragment_symbol (n : Nat) (c : Char) : Fragment (symbol n c) where
  has_entry := has_symbol.2 (.inl rfl)
  has_exit := has_symbol.2 (.inr rfl)
  entry_ne_exit := Nat.ne_of_lt (Nat.lt_succ_self n)
  has_target := by
    intro lab i j hj
    exact has_symbol.2 (.inr (mem_targetsOf_symbol.1 hj).2.2)
  target_ne_entry := by
    intro lab i j hj
    rw [(mem_targetsOf_symbol.1 hj).2.2]
    exact Nat.succ_ne_self n
  not_mem_exit := by
    intro lab j hj
    exact Nat.succ_ne_self n (mem_targetsOf_symbol.1 hj).1
  isFinal_iff := isFinal_symbol

theorem Fragment.star (hm : Fragment m) (hn : ¬ m.Has n) (hn' : ¬ m.Has (n + 1)) :
    Fragment (m.star n) where
  has_entry := has_star.2 (.inl rfl)
  has_exit := has_star.2 (.inr (.inl rfl))
  entry_ne_exit := Nat.ne_of_lt (Nat.lt_succ_self n)
  has_target := by
    intro lab i j hj
    rw [has_star]
    cases (mem_targetsOf_star hn hn' hm.has_exit).1 hj with
    | inl h => exact .inr (.inr (hm.has_target h))
    | inr h =>
      cases h.2.2 with
      | inl he => exact .inr (.inr (he ▸ hm.has_entry))
      | inr he => exact .inr (.inl he)
  target_ne_entry := by
    intro lab i j hj
    change j ≠ n
    cases (mem_targetsOf_star hn hn' hm.has_exit).1 hj with
    | inl h => exact fun he => hn (he ▸ hm.has_target h)
    | inr h =>
      cases h.2.2 with
      | inl he => exact fun hjn => hn (hjn ▸ he ▸ hm.has_entry)
      | inr he => exact he ▸ Nat.succ_ne_self n
  not_mem_exit := by
    intro lab j hj
    cases (mem_targetsOf_star hn hn' hm.has_exit).1 hj with
    | inl h => exact hn' (Has.of_target h)
    | inr h =>
      have hi : n + 1 = n ∨ n + 1 = m.exit := h.1
      cases hi with
      | inl he => exact Nat.succ_ne_self n he
      | inr he => exact hn' (he ▸ hm.has_exit)
  isFinal_iff := by
    intro i
    rw [isFinal_star hn hn', hm.isFinal_iff]
    exact ⟨fun h => h.elim id fun h => (h.2 h.1).elim, .inl⟩

theorem Fragment.union (hl : Fragment l) (hr : Fragment r) (hln : ¬ l.Has n)
    (hln' : ¬ l.Has (n + 1)) (hrn : ¬ r.Has n) (hrn' : ¬ r.Has (n + 1))
    (h : ∀ i, l.Has i → ¬ r.Has i) : Fragment (l.union n r) where
  has_entry := has_union.2 (.inl rfl)
  has_exit := has_union.2 (.inr (.inl rfl))
  entry_ne_exit := Nat.ne_of_lt (Nat.lt_succ_self n)
  has_target := by
    intro lab i j hj
    have hlentry := hl.has_entry
    have hrentry := hr.has_entry
    rw [has_union]
    obtain hj | hj | ⟨_, _, rfl | rfl⟩ | ⟨_, _, rfl⟩ :=
      (mem_targetsOf_union hln hln' hrn hrn' h hl.has_exit hr.has_exit).1 hj
    · exact .inr (.inr (.inl (hl.has_target hj)))
    · exact .inr (.inr (.inr (hr.has_target hj)))
    · exact .inr (.inr (.inl hlentry))
    · exact .inr (.inr (.inr hrentry))
    · exact .inr (.inl rfl)
  target_ne_entry := by
    intro lab i j hj he
    obtain rfl : j = n := he
    obtain hj | hj | ⟨_, _, hj | hj⟩ | ⟨_, _, hj⟩ :=
      (mem_targetsOf_union hln hln' hrn hrn' h hl.has_exit hr.has_exit).1 hj
    · exact hln (hl.has_target hj)
    · exact hrn (hr.has_target hj)
    · exact hln (hj ▸ hl.has_entry)
    · exact hrn (hj ▸ hr.has_entry)
    · omega
  not_mem_exit := by
    intro lab j hj
    change j ∈ (l.union n r).targetsOf lab (n + 1) at hj
    obtain hj | hj | ⟨hi, _⟩ | ⟨hi | hi, _⟩ :=
      (mem_targetsOf_union hln hln' hrn hrn' h hl.has_exit hr.has_exit).1 hj
    · exact hln' (Has.of_target hj)
    · exact hrn' (Has.of_target hj)
    · omega
    · exact hln' (hi ▸ hl.has_exit)
    · exact hrn' (hi ▸ hr.has_exit)
  isFinal_iff := by
    intro i
    rw [isFinal_union hln hln' hrn hrn' h, hl.isFinal_iff, hr.isFinal_iff]
    constructor
    · intro hi
      obtain hi | ⟨hi, hne⟩ | ⟨hi, hne⟩ := hi
      · exact hi
      · exact (hne hi).elim
      · exact (hne hi).elim
    · exact .inl

theorem Fragment.concat (hl : Fragment l) (hr : Fragment r) (h : ∀ i, l.Has i → ¬ r.Has i) :
    Fragment (l.concat r) where
  has_entry := has_concat.2 (.inl hl.has_entry)
  has_exit := has_concat.2 (.inr ⟨hr.has_exit, hr.entry_ne_exit.symm⟩)
  entry_ne_exit := fun he => h l.entry hl.has_entry (he ▸ hr.has_exit)
  has_target := by
    intro lab i j hj
    rw [has_concat]
    obtain hj | ⟨_, hj⟩ | ⟨hj, _⟩ := (mem_targetsOf_concat h hl.has_exit).1 hj
    · exact .inl (hl.has_target hj)
    · exact .inr ⟨hr.has_target hj, hr.target_ne_entry hj⟩
    · exact .inr ⟨hr.has_target hj, hr.target_ne_entry hj⟩
  target_ne_entry := by
    intro lab i j hj he
    have hentry : l.Has j := by
      rw [he]
      exact hl.has_entry
    obtain hj | ⟨_, hj⟩ | ⟨hj, _⟩ := (mem_targetsOf_concat h hl.has_exit).1 hj
    · exact hl.target_ne_entry hj he
    · exact h j hentry (hr.has_target hj)
    · exact h j hentry (hr.has_target hj)
  not_mem_exit := by
    intro lab j hj
    change j ∈ (l.concat r).targetsOf lab r.exit at hj
    obtain hj | ⟨hi, _⟩ | ⟨hj, _⟩ := (mem_targetsOf_concat h hl.has_exit).1 hj
    · exact h r.exit (Has.of_target hj) hr.has_exit
    · exact h l.exit hl.has_exit (hi ▸ hr.has_exit)
    · exact hr.not_mem_exit lab j hj
  isFinal_iff := by
    intro i
    rw [isFinal_concat h, hl.isFinal_iff, hr.isFinal_iff]
    constructor
    · intro hi
      obtain ⟨hi, hne⟩ | ⟨hi, _⟩ := hi
      · exact (hne hi).elim
      · exact hi
    · intro hi
      exact .inr ⟨hi, fun he => hr.entry_ne_exit (he ▸ hi)⟩

end RegexAutomata.Nfa
