import RegexAutomata.Proofs.Nfa.Hereditary

/-! Automata built from postfix forms have no dead ends. From every state some path leads to the
exit, also when the start of a right operand has been dropped, and all its letters are symbols. -/
namespace RegexAutomata.Nfa
variable {A : Alphabet} {m : Nfa} {first n i k : Nat} {w t : List Char}

def Coaccessible (m : Nfa) : Prop := ∀ i, m.Has i → ∃ w, m.Path i w m.exit

theorem coaccessible_symbol (n : Nat) (c : Char) : (symbol n c).Coaccessible := by
  intro i hi
  change ∃ w, (symbol n c).Path i w (n + 1)
  obtain rfl | rfl := has_symbol.1 hi
  · exact ⟨[c], .symbol (mem_targetsOf_symbol.2 ⟨rfl, rfl, rfl⟩) (.stay _)⟩
  · exact ⟨[], .stay _⟩

theorem Coaccessible.star (hm : Fragment m) (hn : ¬ m.Has n) (hn' : ¬ m.Has (n + 1))
    (h : m.Coaccessible) : (m.star n).Coaccessible := by
  intro i hi
  change ∃ w, (m.star n).Path i w (n + 1)
  obtain rfl | rfl | hi := has_star.1 hi
  · exact ⟨[], epsilon_star hm hn hn' (.inl rfl) (.inr rfl) (.stay _)⟩
  · exact ⟨[], .stay _⟩
  · obtain ⟨w, hw⟩ := h i hi
    exact ⟨w, path_star_exit hm hn hn' hw⟩

theorem Coaccessible.union {l r : Nfa} (hl : Fragment l) (hr : Fragment r) (hln : ¬ l.Has n)
    (hln' : ¬ l.Has (n + 1)) (hrn : ¬ r.Has n) (hrn' : ¬ r.Has (n + 1))
    (h : ∀ i, l.Has i → ¬ r.Has i) (hleft : l.Coaccessible) (hright : r.Coaccessible) :
    (l.union n r).Coaccessible := by
  intro i hi
  change ∃ w, (l.union n r).Path i w (n + 1)
  obtain rfl | rfl | hi | hi := has_union.1 hi
  · obtain ⟨w, hw⟩ := hleft l.entry hl.has_entry
    have hthrough := path_union_left_exit hl hr hln hln' hrn hrn' h hw
    exact ⟨w, epsilon_union hl hr hln hln' hrn hrn' h (.inl rfl) hthrough⟩
  · exact ⟨[], .stay _⟩
  · obtain ⟨w, hw⟩ := hleft i hi
    exact ⟨w, path_union_left_exit hl hr hln hln' hrn hrn' h hw⟩
  · obtain ⟨w, hw⟩ := hright i hi
    exact ⟨w, path_union_right_exit hl hr hln hln' hrn hrn' h hw⟩

/-- A path to the left exit goes on where the dropped entry of the right operand went on. -/
theorem Coaccessible.concat {l r : Nfa} (hl : Fragment l) (hr : Fragment r)
    (h : ∀ i, l.Has i → ¬ r.Has i) (hleft : l.Coaccessible) (hright : r.Coaccessible) :
    (l.concat r).Coaccessible := by
  intro i hi
  change ∃ w, (l.concat r).Path i w r.exit
  obtain hi | ⟨hi, hne⟩ := has_concat.1 hi
  · obtain ⟨u, hu⟩ := hleft i hi
    obtain ⟨v, hv⟩ := hright r.entry hr.has_entry
    exact ⟨u ++ v, path_concat hl hr h hu hv hr.entry_ne_exit.symm⟩
  · obtain ⟨w, hw⟩ := hright i hi
    exact ⟨w, path_concat_right hl hr h hw hne⟩

theorem inherited_coaccessible : Inherited Coaccessible where
  symbol := coaccessible_symbol
  star := fun hm hn hn' h => h.star hm hn hn'
  union := fun hl hr hln hln' hrn hrn' h hleft hright =>
    hleft.union hl hr hln hln' hrn hrn' h hright
  concat := fun hl hr h hleft hright => hleft.concat hl hr h hright

def Over (A : Alphabet) (m : Nfa) : Prop :=
  ∀ i j c, j ∈ m.targetsOf (.symbol c) i → A.contains c = true

theorem hereditary_over (A : Alphabet) (first : Nat) : Hereditary A first (Over A) where
  symbol := by
    intro n c _ hc i j c' hj
    obtain ⟨_, hlabel, _⟩ := mem_targetsOf_symbol.1 hj
    rw [Label.symbol.inj hlabel]
    exact hc
  star := by
    intro n m _ hm hn hn' h i j c hj
    obtain hj | ⟨_, hlabel, _⟩ := (mem_targetsOf_star hn hn' hm.has_exit).1 hj
    · exact h i j c hj
    · cases hlabel
  union := by
    intro n l r _ hl hr hln hln' hrn hrn' h hleft hright i j c hj
    obtain hj | hj | ⟨_, hlabel, _⟩ | ⟨_, hlabel, _⟩ :=
      (mem_targetsOf_union hln hln' hrn hrn' h hl.has_exit hr.has_exit).1 hj
    · exact hleft i j c hj
    · exact hright i j c hj
    · cases hlabel
    · cases hlabel
  concat := by
    intro l r hl _ h hleft hright i j c hj
    obtain hj | ⟨_, hj⟩ | ⟨hj, _⟩ := (mem_targetsOf_concat h hl.has_exit).1 hj
    · exact hleft i j c hj
    · exact hright _ j c hj
    · exact hright i j c hj

theorem Over.of_path (h : m.Over A) (hp : m.Path i w k) : ∀ c ∈ w, A.contains c = true := by
  induction hp with
  | stay => exact fun c hc => (List.not_mem_nil hc).elim
  | epsilon _ _ ih => exact ih
  | symbol hs _ ih => exact List.forall_mem_cons.2 ⟨h _ _ _ hs, ih⟩

theorem Fragment.has_of_path (hm : Fragment m) (hp : m.Path i w k) (hi : m.Has i) : m.Has k := by
  induction hp with
  | stay => exact hi
  | epsilon he _ ih => exact ih (hm.has_target he)
  | symbol hs _ ih => exact ih (hm.has_target hs)

/-- Whatever has been read from the start can be completed to a word over the alphabet. -/
theorem exists_completion (h : (ofPostfix A n t).result = .ok m) (hp : m.Path m.entry w k) :
    ∃ v, (∀ c ∈ v, A.contains c = true) ∧ m.Path k v m.exit := by
  have hm : Fragment m := (Construction.ofPostfix h).1
  have hk := hm.has_of_path hp hm.has_entry
  obtain ⟨v, hv⟩ := (inherited_coaccessible.hereditary A n).ofPostfix h k hk
  have hover : m.Over A := (hereditary_over A n).ofPostfix h
  exact ⟨v, hover.of_path hv, hv⟩

end RegexAutomata.Nfa
