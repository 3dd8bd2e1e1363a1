import RegexAutomata.Proofs.Nfa.Count

/-! The symbols that label edges. What is built from a postfix form is labelled with its operands and
with no other symbols. -/
namespace RegexAutomata.Nfa
variable {m : Nfa} {c : Char}

def Labelled (m : Nfa) (c : Char) : Prop := ∃ i j, j ∈ m.targetsOf (.symbol c) i

theorem labelled_iff_mem_labels : m.Labelled c ↔ .symbol c ∈ m.labels := by
  constructor
  · rintro ⟨i, j, hj⟩
    obtain ⟨s, hs, he⟩ := mem_targetsOf.1 hj
    exact List.mem_flatMap.2 ⟨s, List.mem_of_find?_eq_some hs, List.mem_map_of_mem he⟩
  · intro h
    obtain ⟨s, hs, h⟩ := List.mem_flatMap.1 h
    obtain ⟨e, he, hlabel⟩ := List.mem_map.1 h
    exact ⟨s.id, e.target, mem_targetsOf.2 ⟨s, Keyed.mem_iff_find?.1 hs, hlabel ▸ he⟩⟩

theorem not_labelled_iff :
    ¬ m.Labelled c ↔ ∀ s ∈ m.states.toList, ∀ e ∈ s.edges, e.label ≠ .symbol c := by
  rw [labelled_iff_mem_labels, labels, List.mem_flatMap]
  simp only [State.labels, List.mem_map, not_exists, not_and]

/-- The labels of what is built are the operands of the postfix form. -/
theorem labelled_ofPostfix {A : Alphabet} {n : Nat} {t : List Char}
    (h : (ofPostfix A n t).result = .ok m) : m.Labelled c ↔ c ∈ t ∧ role c = .operand := by
  have hsymbol : .symbol c ∈ m.labels ↔ c ∈ m.labels.filterMap Label.char? := by
    simp [List.mem_filterMap, Label.char?_eq_some_iff]
  rw [labelled_iff_mem_labels, hsymbol, (symbols_ofPostfix h).mem_iff, List.mem_filter]
  apply and_congr_right
  intro hc
  constructor
  · exact Alphabet.role_of_contains
  · intro hrole
    have htakes := (draws_ofPostfix h).takesIds_or_dot c hc
    simp only [Assembly.takesIds, Bool.or_eq_true, beq_iff_eq] at htakes
    obtain ((hA | rfl) | rfl) | rfl := htakes
    · exact hA
    all_goals cases hrole

end RegexAutomata.Nfa
