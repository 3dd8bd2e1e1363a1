import RegexAutomata.Proofs.Dfa.Trim
import RegexAutomata.Proofs.Nfa.Trim
import RegexAutomata.Proofs.Session.Stages

/-! Conversions come to trim automata: whoever reads a word may stop at the first missing
transition, since no accepted word goes on from there. -/
namespace RegexAutomata.Session
variable {s : Session} {e : List Char} {c : Conversion}

/-- The automaton of a conversion explores one in which every path can be completed. -/
theorem dfa_eq_explore (h : (s.convert e).result = .ok c) :
    c.nfa.start? = some c.nfa.entry ∧
      c.dfa = (Dfa.explore c.nfa s.alphabet.toList c.nfa.entry).toDfa c.nfa s.alphabet.toList ∧
      ∀ w k, c.nfa.Path c.nfa.entry w k →
        ∃ v k', (∀ a ∈ v, a ∈ s.alphabet.toList) ∧ c.nfa.Path k v k' ∧ c.nfa.isFinal k' = true := by
  obtain ⟨_, _, _, hm, d, hd, hvalue⟩ := convert_eq_ok h
  have hfragment : Nfa.Fragment c.nfa := (Construction.ofPostfix hm).1
  obtain ⟨log, hd'⟩ := Dfa.exists_ofNfa?_eq s.alphabet hfragment.start?_eq
  obtain rfl := Option.some.inj (hd.symm.trans hd')
  refine ⟨hfragment.start?_eq, hvalue.symm, fun w k hp => ?_⟩
  obtain ⟨v, hv, hk⟩ := Nfa.exists_completion hm hp
  exact ⟨v, c.nfa.exit, fun a ha => List.contains_iff_mem.1 (hv a ha), hk,
    hfragment.isFinal_iff.2 rfl⟩

/-- The automaton of a conversion has no useless state. The words that can be read in it are the
beginnings of the words that it accepts, of which there is at least one. -/
theorem trim_convert (h : (s.convert e).result = .ok c) :
    c.dfa.Trim ∧
    (∀ w, (c.dfa.readFrom? c.dfa.start w).isSome = true ↔
      ∃ v, w <+: v ∧ c.dfa.accepts v = true) ∧
    ∃ w, c.dfa.accepts w = true := by
  obtain ⟨hs, hdfa, hlive⟩ := dfa_eq_explore h
  rw [hdfa]
  refine ⟨Dfa.trim_explore hs hlive, Dfa.isSome_readFrom?_iff hs hlive, ?_⟩
  obtain ⟨w, hw⟩ := Dfa.exists_accepted_append (w := []) hs hlive (fun a ha => by cases ha)
    ⟨_, .stay _⟩
  exact ⟨w, hw⟩

/-- The right operand of the concatenation loses its start, and nothing ends with the sum. -/
theorem trim_convert_product :
    ∃ c, ((Session.mk (.extend .empty ['a', 'b']) 5).convert ['a', '(', 'a', '+', 'b', ')']).result =
        .ok c ∧
      c.dfa.Trim ∧
      (c.dfa.readFrom? c.dfa.start ['b'] = none ↔
        ¬ ∃ v, ['b'] <+: v ∧ c.dfa.accepts v = true) := by
  obtain ⟨c, hc⟩ : ∃ c, ((Session.mk (.extend .empty ['a', 'b']) 5).convert
      ['a', '(', 'a', '+', 'b', ')']).result = .ok c := ⟨_, rfl⟩
  obtain ⟨htrim, hprefix, _⟩ := trim_convert hc
  refine ⟨c, hc, htrim, ?_⟩
  rw [← hprefix, Option.not_isSome_iff_eq_none]

end RegexAutomata.Session
