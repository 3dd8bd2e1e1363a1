import RegexAutomata.Proofs.Nfa.Hereditary

/-! The shape of the automata that come out of a construction. Flags and edges of each state follow
from its part in the automaton, every state is reached from the entry, and no edge is ever drawn to
a state that is missing. -/
namespace RegexAutomata
namespace Nfa
variable {m l r : Nfa} {n i j k a entry exit : Nat} {lab : Label} {s : State} {c : Char}
  {more edges : List Edge} {w : List Char}

theorem Has.of_state? (h : m.state? i = some s) : m.Has i := Option.isSome_of_eq_some h

theorem state?_eq_none (h : ¬ m.Has i) : m.state? i = none := Option.not_isSome_iff_eq_none.1 h

section flags

def Forking (edges : List Edge) : Prop :=
  (edges.length = 1 ∨ edges.length = 2) ∧ ∀ e ∈ edges, e.label = .epsilon

def Plain (edges : List Edge) : Prop := (∃ c j, edges = [⟨.symbol c, j⟩]) ∨ Forking edges

theorem forking_one (j : Nat) : Forking [⟨.epsilon, j⟩] := ⟨.inl rfl, by simp⟩

theorem forking_two (j k : Nat) : Forking [⟨.epsilon, j⟩, ⟨.epsilon, k⟩] := ⟨.inr rfl, by simp⟩

structure State.Tidy (entry exit : Nat) (s : State) : Prop where
  isStart_iff : s.isStart = true ↔ s.id = entry
  isFinal_iff : s.isFinal = true ↔ s.id = exit
  edges_exit : s.id = exit → s.edges = []
  plain : s.id ≠ exit → Plain s.edges

def Tidy (m : Nfa) : Prop := ∀ i s, m.state? i = some s → s.Tidy m.entry m.exit

theorem tidy_entry (hne : n ≠ k) (h : Plain edges) :
    State.Tidy n k ⟨n, true, false, edges⟩ where
  isStart_iff := ⟨fun _ => rfl, fun _ => rfl⟩
  isFinal_iff := ⟨nofun, fun he => absurd he hne⟩
  edges_exit := fun he => absurd he hne
  plain := fun _ => h

theorem tidy_exit (hne : n ≠ k) : State.Tidy n k ⟨k, false, true, []⟩ where
  isStart_iff := ⟨nofun, fun he => absurd he.symm hne⟩
  isFinal_iff := ⟨fun _ => rfl, fun _ => rfl⟩
  edges_exit := fun _ => rfl
  plain := fun he => absurd rfl he

def State.within (m : Nfa) (more : List Edge) (s : State) : State :=
  ⟨s.id, s.isStart && s.id != m.entry, s.isFinal && s.id != m.exit,
    s.edges ++ if s.id = m.exit then more else []⟩

theorem State.Tidy.within (h : s.Tidy m.entry m.exit) (hmore : Forking more)
    (hentry : s.id ≠ entry) (hexit : s.id ≠ exit) : (s.within m more).Tidy entry exit where
  isStart_iff := by
    have hflag : (s.within m more).isStart = false := by
      simp [State.within, Bool.eq_false_iff, h.isStart_iff]
    rw [hflag]
    exact ⟨nofun, fun he => absurd he hentry⟩
  isFinal_iff := by
    have hflag : (s.within m more).isFinal = false := by
      simp [State.within, Bool.eq_false_iff, h.isFinal_iff]
    rw [hflag]
    exact ⟨nofun, fun he => absurd he hexit⟩
  edges_exit := fun he => absurd he hexit
  plain := by
    intro _
    by_cases he : s.id = m.exit
    · simp only [State.within, he, if_true, h.edges_exit he, List.nil_append]
      exact .inr hmore
    · simp only [State.within, he, if_false, List.append_nil]
      exact h.plain he

end flags

section combinators

theorem state?_symbol (n : Nat) (c : Char) (i : Nat) : (symbol n c).state? i =
    if i = n then some ⟨n, true, false, [⟨.symbol c, n + 1⟩]⟩
    else if i = n + 1 then some ⟨n + 1, false, true, []⟩ else none := by
  rw [symbol, state?_link, state?_ends]
  by_cases h : i = n
  · simp [h]
  · by_cases h' : i = n + 1 <;> simp [h, h', eq_comm (b := i)]

theorem state?_star (hn : ¬ m.Has n) (hn' : ¬ m.Has (n + 1)) (hexit : m.Has m.exit) (i : Nat) :
    (m.star n).state? i =
      if i = n then some ⟨n, true, false, [⟨.epsilon, m.entry⟩, ⟨.epsilon, n + 1⟩]⟩
      else if i = n + 1 then some ⟨n + 1, false, true, []⟩
      else (m.state? i).map (State.within m [⟨.epsilon, n + 1⟩, ⟨.epsilon, m.entry⟩]) := by
  have hne : n ≠ m.exit := fun he => hn (he ▸ hexit)
  have hne' : n + 1 ≠ m.exit := fun he => hn' (he ▸ hexit)
  simp only [star_eq, state?_link, state?_absorb, state?_ends, state?_interior]
  by_cases h : i = n
  · subst h
    simp [state?_eq_none hn, hne]
  · by_cases h' : i = n + 1
    · subst h'
      simp [state?_eq_none hn', hne']
    · cases hs : m.state? i with
      | none => simp [h, h', Ne.symm h, Ne.symm h']
      | some s =>
        obtain rfl := id_of_state? hs
        -- only the exit gets more edges
        by_cases he : s.id = m.exit
        · simp [he, hne.symm, hne'.symm, State.within]
        · simp [h, h', he, State.within]

theorem state?_union (hln : ¬ l.Has n) (hln' : ¬ l.Has (n + 1)) (hrn : ¬ r.Has n)
    (hrn' : ¬ r.Has (n + 1)) (h : ∀ i, l.Has i → ¬ r.Has i) (hlexit : l.Has l.exit)
    (hrexit : r.Has r.exit) (i : Nat) : (l.union n r).state? i =
      if i = n then some ⟨n, true, false, [⟨.epsilon, l.entry⟩, ⟨.epsilon, r.entry⟩]⟩
      else if i = n + 1 then some ⟨n + 1, false, true, []⟩
      else ((l.state? i).map (State.within l [⟨.epsilon, n + 1⟩])).or
        ((r.state? i).map (State.within r [⟨.epsilon, n + 1⟩])) := by
  have hlne : n ≠ l.exit := fun he => hln (he ▸ hlexit)
  have hlne' : n + 1 ≠ l.exit := fun he => hln' (he ▸ hlexit)
  have hrne : n ≠ r.exit := fun he => hrn (he ▸ hrexit)
  have hrne' : n + 1 ≠ r.exit := fun he => hrn' (he ▸ hrexit)
  have hne : l.exit ≠ r.exit := fun he => h _ hlexit (he ▸ hrexit)
  simp only [union_eq, state?_link, state?_absorb, state?_ends, state?_interior]
  by_cases hi : i = n
  · subst hi
    simp [state?_eq_none hln, state?_eq_none hrn, hlne, hrne]
  · by_cases hi' : i = n + 1
    · subst hi'
      simp [state?_eq_none hln', state?_eq_none hrn', hlne', hrne']
    · cases hs : l.state? i with
      | none =>
        cases hs' : r.state? i with
        | none => simp [hi, hi', Ne.symm hi, Ne.symm hi']
        | some s =>
          obtain rfl := id_of_state? hs'
          have hl : s.id ≠ l.exit := fun he => by simp [Has, ← he, hs] at hlexit
          by_cases he : s.id = r.exit
          · simp [he, hrne.symm, hrne'.symm, hne.symm, State.within]
          · simp [hi, hi', hl, he, State.within]
      | some s =>
        obtain rfl := id_of_state? hs
        have hr : ¬ r.Has s.id := h _ (Option.isSome_of_eq_some hs)
        have hre : s.id ≠ r.exit := fun he => hr (he ▸ hrexit)
        by_cases he : s.id = l.exit
        · simp [state?_eq_none (he ▸ hr), he, hlne.symm, hlne'.symm, hne, State.within]
        · simp [state?_eq_none hr, hi, hi', hre, he, State.within]

theorem state?_concat (l r : Nfa) (i : Nat) : (l.concat r).state? i =
    (if i = r.entry then none else r.state? i).or
      (if i = l.exit then (l.state? i).map (State.extended r.entryEdges) else l.state? i) := by
  rw [concat_eq]
  exact (state?_absorb ..).trans (by rw [state?_tail, state?_joint])

end combinators

section Tidy

theorem State.Tidy.change_entry (h : s.Tidy entry exit) (hne : s.id ≠ entry) (hne' : s.id ≠ i) :
    s.Tidy i exit :=
  { h with isStart_iff := h.isStart_iff.trans (iff_of_false hne hne') }

theorem State.Tidy.change_exit (h : s.Tidy entry exit) (hne : s.id ≠ exit) (hne' : s.id ≠ i) :
    s.Tidy entry i where
  isStart_iff := h.isStart_iff
  isFinal_iff := h.isFinal_iff.trans (iff_of_false hne hne')
  edges_exit := fun he => absurd he hne'
  plain := fun _ => h.plain hne

/-- The exit as an inner state that goes on with the edges of another entry. -/
theorem State.Tidy.extended (h : s.Tidy entry exit) (he : s.id = exit) (hne : s.id ≠ i)
    (hedges : Plain edges) : (s.extended edges).Tidy entry i where
  isStart_iff := h.isStart_iff
  isFinal_iff := iff_of_false Bool.false_ne_true hne
  edges_exit := fun he => absurd he hne
  plain := by
    intro _
    simp only [State.extended, h.edges_exit he, List.nil_append]
    exact hedges

theorem Tidy.plain_entryEdges (h : m.Tidy) (hm : Fragment m) : Plain m.entryEdges := by
  obtain ⟨s, hs⟩ := Option.isSome_iff_exists.1 hm.has_entry
  have hid : s.id ≠ m.exit := by
    rw [id_of_state? hs]
    exact hm.entry_ne_exit
  simpa [entryEdges, hs] using (h _ s hs).plain hid

theorem tidy_symbol (n : Nat) (c : Char) : (symbol n c).Tidy := by
  intro i s hs
  have hne : n ≠ n + 1 := Nat.ne_of_lt (Nat.lt_succ_self n)
  rw [state?_symbol] at hs
  split at hs
  · cases hs
    exact tidy_entry hne (.inl ⟨c, n + 1, rfl⟩)
  · split at hs
    · cases hs
      exact tidy_exit hne
    · cases hs

theorem Tidy.star (h : m.Tidy) (hm : Fragment m) (hn : ¬ m.Has n) (hn' : ¬ m.Has (n + 1)) :
    (m.star n).Tidy := by
  intro i s hs
  have hne : n ≠ n + 1 := Nat.ne_of_lt (Nat.lt_succ_self n)
  rw [state?_star hn hn' hm.has_exit] at hs
  split at hs
  · cases hs
    exact tidy_entry hne (.inr (forking_two ..))
  · split at hs
    · cases hs
      exact tidy_exit hne
    · obtain ⟨s, hm, rfl⟩ := Option.map_eq_some_iff.1 hs
      obtain rfl := id_of_state? hm
      exact (h _ s hm).within (forking_two ..) ‹_› ‹_›

theorem Tidy.union (hl : l.Tidy) (hr : r.Tidy) (hfl : Fragment l) (hfr : Fragment r)
    (hln : ¬ l.Has n) (hln' : ¬ l.Has (n + 1)) (hrn : ¬ r.Has n) (hrn' : ¬ r.Has (n + 1))
    (h : ∀ i, l.Has i → ¬ r.Has i) : (l.union n r).Tidy := by
  intro i s hs
  have hne : n ≠ n + 1 := Nat.ne_of_lt (Nat.lt_succ_self n)
  rw [state?_union hln hln' hrn hrn' h hfl.has_exit hfr.has_exit] at hs
  split at hs
  · cases hs
    exact tidy_entry hne (.inr (forking_two ..))
  · split at hs
    · cases hs
      exact tidy_exit hne
    · obtain hs | ⟨_, hs⟩ := Option.or_eq_some_iff.1 hs
      all_goals
        obtain ⟨s, hm, rfl⟩ := Option.map_eq_some_iff.1 hs
        obtain rfl := id_of_state? hm
      · exact (hl _ s hm).within (forking_one _) ‹_› ‹_›
      · exact (hr _ s hm).within (forking_one _) ‹_› ‹_›

/-- No edge leaves the left exit, so that it has the edges of the dropped entry afterwards. -/
theorem Tidy.concat (hl : l.Tidy) (hr : r.Tidy) (hfl : Fragment l) (hfr : Fragment r)
    (h : ∀ i, l.Has i → ¬ r.Has i) : (l.concat r).Tidy := by
  intro i s hs
  change s.Tidy l.entry r.exit
  rw [state?_concat] at hs
  obtain hs | ⟨_, hs⟩ := Option.or_eq_some_iff.1 hs
  · split at hs
    · cases hs
    · obtain rfl := id_of_state? hs
      have hne : s.id ≠ l.entry := fun he => h _ hfl.has_entry (he ▸ Has.of_state? hs)
      exact (hr _ s hs).change_entry ‹_› hne
  · have hne : ∀ {i s}, l.state? i = some s → s.id ≠ r.exit := by
      intro i s hs he
      obtain rfl := id_of_state? hs
      exact h _ (Has.of_state? hs) (he ▸ hfr.has_exit)
    split at hs
    · obtain ⟨s, hl', rfl⟩ := Option.map_eq_some_iff.1 hs
      have he : s.id = l.exit := (id_of_state? hl').trans ‹_›
      exact (hl _ s hl').extended he (hne hl') (hr.plain_entryEdges hfr)
    · obtain rfl := id_of_state? hs
      exact (hl _ s hs).change_exit ‹_› (hne hs)

theorem inherited_tidy : Inherited Tidy where
  symbol := tidy_symbol
  star := fun hm hn hn' h => h.star hm hn hn'
  union := fun hl hr hln hln' hrn hrn' h hleft hright =>
    hleft.union hright hl hr hln hln' hrn hrn' h
  concat := fun hl hr h hleft hright => hleft.concat hright hl hr h

end Tidy

section Accessible

def Accessible (m : Nfa) : Prop := ∀ i, m.Has i → ∃ w, m.Path m.entry w i

theorem accessible_symbol (n : Nat) (c : Char) : (symbol n c).Accessible := by
  intro i hi
  change ∃ w, (symbol n c).Path n w i
  obtain rfl | rfl := has_symbol.1 hi
  · exact ⟨[], .stay _⟩
  · exact ⟨[c], .symbol (mem_targetsOf_symbol.2 ⟨rfl, rfl, rfl⟩) (.stay _)⟩

theorem Accessible.star (h : m.Accessible) (hm : Fragment m) (hn : ¬ m.Has n)
    (hn' : ¬ m.Has (n + 1)) : (m.star n).Accessible := by
  intro i hi
  change ∃ w, (m.star n).Path n w i
  obtain rfl | rfl | hi := has_star.1 hi
  · exact ⟨[], .stay _⟩
  · exact ⟨[], epsilon_star hm hn hn' (.inl rfl) (.inr rfl) (.stay _)⟩
  · obtain ⟨w, hw⟩ := h i hi
    exact ⟨w, epsilon_star hm hn hn' (.inl rfl) (.inl rfl) (path_star hm hn hn' hw)⟩

theorem Accessible.union (hleft : l.Accessible) (hright : r.Accessible) (hl : Fragment l)
    (hr : Fragment r) (hln : ¬ l.Has n) (hln' : ¬ l.Has (n + 1)) (hrn : ¬ r.Has n)
    (hrn' : ¬ r.Has (n + 1)) (h : ∀ i, l.Has i → ¬ r.Has i) : (l.union n r).Accessible := by
  have hin {i j : Nat} {w : List Char} (hi : i = l.entry ∨ i = r.entry)
      (hp : (l.union n r).Path i w j) : (l.union n r).Path n w j :=
    epsilon_union hl hr hln hln' hrn hrn' h hi hp
  intro i hi
  change ∃ w, (l.union n r).Path n w i
  obtain rfl | rfl | hi | hi := has_union.1 hi
  · exact ⟨[], .stay _⟩
  · obtain ⟨w, hw⟩ := hleft l.exit hl.has_exit
    exact ⟨w, hin (.inl rfl) (path_union_left_exit hl hr hln hln' hrn hrn' h hw)⟩
  · obtain ⟨w, hw⟩ := hleft i hi
    exact ⟨w, hin (.inl rfl) (path_union_left hl hr hln hln' hrn hrn' h hw)⟩
  · obtain ⟨w, hw⟩ := hright i hi
    exact ⟨w, hin (.inr rfl) (path_union_right hl hr hln hln' hrn hrn' h hw)⟩

theorem Accessible.concat (hleft : l.Accessible) (hright : r.Accessible) (hl : Fragment l)
    (hr : Fragment r) (h : ∀ i, l.Has i → ¬ r.Has i) : (l.concat r).Accessible := by
  intro i hi
  change ∃ w, (l.concat r).Path l.entry w i
  obtain hi | ⟨hi, hne⟩ := has_concat.1 hi
  · obtain ⟨w, hw⟩ := hleft i hi
    exact ⟨w, path_concat_left hl h hw⟩
  · obtain ⟨u, hu⟩ := hleft l.exit hl.has_exit
    obtain ⟨v, hv⟩ := hright i hi
    exact ⟨u ++ v, path_concat hl hr h hu hv hne⟩

theorem inherited_accessible : Inherited Accessible where
  symbol := accessible_symbol
  star := fun hm hn hn' h => h.star hm hn hn'
  union := fun hl hr hln hln' hrn hrn' h hleft hright =>
    hleft.union hright hl hr hln hln' hrn hrn' h
  concat := fun hl hr h hleft hright => hleft.concat hright hl hr h

end Accessible

section link?

instance : Decidable (m.Has i) := inferInstanceAs (Decidable (_ = true))

/-- Adds an edge as `link` does, provided that both of its ends are states. -/
def link? (m : Nfa) (source : Nat) (l : Label) (target : Nat) : Option Nfa :=
  if m.Has source ∧ m.Has target then some (m.link source l target) else none

def symbol? (n : Nat) (c : Char) : Option Nfa := (ends n).link? n (.symbol c) (n + 1)

def star? (n : Nat) (m : Nfa) : Option Nfa := do
  let whole ← ((ends n).absorb m.interior).link? n .epsilon m.entry
  let whole ← whole.link? n .epsilon (n + 1)
  let whole ← whole.link? m.exit .epsilon (n + 1)
  whole.link? m.exit .epsilon m.entry

def union? (n : Nat) (l r : Nfa) : Option Nfa := do
  let whole ← (((ends n).absorb l.interior).absorb r.interior).link? n .epsilon l.entry
  let whole ← whole.link? n .epsilon r.entry
  let whole ← whole.link? l.exit .epsilon (n + 1)
  whole.link? r.exit .epsilon (n + 1)

theorem link?_eq_some (hs : m.Has i) (ht : m.Has j) : m.link? i lab j = some (m.link i lab j) :=
  if_pos ⟨hs, ht⟩

theorem symbol?_eq_some (n : Nat) (c : Char) : symbol? n c = some (symbol n c) :=
  link?_eq_some (has_ends.2 (.inl rfl)) (has_ends.2 (.inr rfl))

/-- No edge of a star is drawn to or from a missing state. -/
theorem star?_eq_some (hm : Fragment m) (n : Nat) : m.star? n = some (m.star n) := by
  simp [star?, star_eq, link?_eq_some, has_link, has_absorb, has_ends, has_interior, hm.has_entry,
    hm.has_exit]

theorem union?_eq_some (hl : Fragment l) (hr : Fragment r) (n : Nat) :
    l.union? n r = some (l.union n r) := by
  simp [union?, union_eq, link?_eq_some, has_link, has_absorb, has_ends, has_interior,
    hl.has_entry, hl.has_exit, hr.has_entry, hr.has_exit]

end link?

theorem exists_of_mem_edgeTargets (h : j ∈ m.edgeTargets) : ∃ lab i, j ∈ m.targetsOf lab i := by
  obtain ⟨s, hs, hj⟩ := List.mem_flatMap.1 h
  obtain ⟨e, he, rfl⟩ := List.mem_map.1 hj
  exact ⟨e.label, s.id, mem_targetsOf.2 ⟨s, Keyed.mem_iff_find?.1 hs, he⟩⟩

/-- One start state and one accepting state, each state with the flags and edges that belong to it,
and edges between states only, none of them back to the start. -/
structure WellFormed (m : Nfa) : Prop where
  start?_eq : m.start? = some m.entry
  accept?_eq : m.accept? = some m.exit
  entry_ne_exit : m.entry ≠ m.exit
  id_eq : ∀ i s, m.state? i = some s → s.id = i
  tidy : m.Tidy
  target_ne_entry : ∀ j ∈ m.edgeTargets, j ≠ m.entry
  has_target : ∀ j ∈ m.edgeTargets, m.Has j
  accessible : m.Accessible

theorem Fragment.wellFormed (hm : Fragment m) (htidy : m.Tidy) (haccessible : m.Accessible) :
    m.WellFormed where
  start?_eq := hm.start?_eq
  accept?_eq := hm.accept?_eq
  entry_ne_exit := hm.entry_ne_exit
  id_eq := fun _ _ => id_of_state?
  tidy := htidy
  target_ne_entry := by
    intro j hj
    obtain ⟨lab, i, hj⟩ := exists_of_mem_edgeTargets hj
    exact hm.target_ne_entry hj
  has_target := by
    intro j hj
    obtain ⟨lab, i, hj⟩ := exists_of_mem_edgeTargets hj
    exact hm.has_target hj
  accessible := haccessible

end Nfa

namespace Construction
open Nfa

/-- Whatever has been built by then, and in whatever order, each automaton at hand is well formed
and has issued ids, no two of them have an id in common, and no edge of the next one drawn leads to
or from a missing state. The stack of an assembly is such a construction at any time, and so is
what is left of it in the end. -/
theorem wellFormed_at_hand :
    (∀ n p, Construction n p →
      (∀ x ∈ p, x.1.WellFormed ∧ (∀ i ∈ x.1.ids, i < n) ∧ x.1.star? n = some (x.1.star n)) ∧
      (p.Pairwise fun x y => (∀ i ∈ x.1.ids, ¬ i ∈ y.1.ids) ∧
        x.1.union? n y.1 = some (x.1.union n y.1) ∧ y.1.union? n x.1 = some (y.1.union n x.1)) ∧
      ∀ c, Nfa.symbol? n c = some (Nfa.symbol n c)) ∧
    ∀ A n t,
      (∃ p, Construction ((Assembly.mk n []).run A 0 t).last.issued p ∧
        ((Assembly.mk n []).run A 0 t).last.stack = p.map Prod.fst) ∧
      ∀ m, (Nfa.ofPostfix A n t).result = .ok m →
        m.WellFormed ∧ ∀ i ∈ m.ids, n ≤ i ∧ i < (Nfa.ofPostfix A n t).issued := by
  refine ⟨fun n p hp => ⟨?_, ?_, symbol?_eq_some n⟩, fun A n t => ⟨?_, fun m hm => ⟨?_, ?_⟩⟩⟩
  · intro x hx
    have hgood := hp.sound.good x hx
    have hm : Fragment x.1 := hgood.fragment
    refine ⟨?_, fun i hi => hgood.lt (hm.has_of_mem_ids hi), star?_eq_some hm n⟩
    exact hm.wellFormed (hp.inherited inherited_tidy x hx) (hp.inherited inherited_accessible x hx)
  · refine hp.sound.apart.imp_of_mem fun hx hy hapart => ?_
    have hfx := (hp.sound.good _ hx).fragment
    have hfy := (hp.sound.good _ hy).fragment
    refine ⟨fun i hi hi' => ?_, union?_eq_some hfx hfy n, union?_eq_some hfy hfx n⟩
    exact hapart i (hfx.has_of_mem_ids hi) (hfy.has_of_mem_ids hi')
  · exact ((Assembly.holds_start _ n).run (hereditary_first A n) 0 t).construction
  · exact (ofPostfix hm).1.wellFormed ((inherited_tidy.hereditary A n).ofPostfix hm)
      ((inherited_accessible.hereditary A n).ofPostfix hm)
  · exact fun i => mem_ids_ofPostfix hm

/-- Two automata at hand after an id was left out, and a form built from id 3 on. -/
theorem wellFormed_at_hand_instance :
    Construction 7 [((Nfa.symbol 3 'a').star 5, KStar.kstar {['a']}), (Nfa.symbol 0 'b', {['b']})] ∧
    ((Nfa.symbol 3 'a').star 5).WellFormed ∧
    (Nfa.ofPostfix (Alphabet.empty.extend ['a', 'b']) 3 ['a', 'b', '.']).result =
      .ok ((Nfa.symbol 3 'a').concat (Nfa.symbol 5 'b')) ∧
    ((Nfa.symbol 3 'a').concat (Nfa.symbol 5 'b')).WellFormed := by
  have hp := (((start 0).symbol 'b').issue.symbol 'a').star
  have hm : (Nfa.ofPostfix (Alphabet.empty.extend ['a', 'b']) 3 ['a', 'b', '.']).result =
      .ok ((Nfa.symbol 3 'a').concat (Nfa.symbol 5 'b')) := by decide
  refine ⟨hp, ?_, hm, ((wellFormed_at_hand.2 _ 3 _).2 _ hm).1⟩
  exact ((wellFormed_at_hand.1 7 _ hp).1 _ List.mem_cons_self).1

end Construction
end RegexAutomata
