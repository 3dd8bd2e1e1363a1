import RegexAutomata.Proofs.Nfa.Labels
import RegexAutomata.Proofs.Nfa.Listing
import RegexAutomata.Proofs.Session.Symbols

/-! What the listing of a conversion tells. It is the automaton, unless the symbol epsilon occurs in
the expression: its edges are shown like epsilon edges. -/
namespace RegexAutomata.Session
open Expression Nfa.Listing
variable {s : Session} {e : List Char} {c : Conversion} {x : Char}

/-- The labels of the automaton are the symbols of the expression. -/
theorem labelled_convert (h : (s.convert e).result = .ok c) :
    c.nfa.Labelled x ↔ x ∈ e ∧ role x = .operand := by
  obtain ⟨_, hforms, _, hm, _⟩ := convert_eq_ok h
  obtain ⟨_, _, hf⟩ := forms_eq_ok.1 hforms
  have hpostfix : c.postfixForm = Postfix.ofExpression (explicit s.alphabet e) :=
    congrArg Forms.postfixForm hf
  rw [Nfa.labelled_ofPostfix hm, hpostfix]
  refine and_congr_left fun hx => ⟨fun hmem => ?_, fun hmem => ?_⟩
  · refine (mem_of_mem_explicit (Postfix.mem_ofExpression hmem)).resolve_right ?_
    rintro rfl
    cases hx
  · exact Postfix.mem_ofExpression_of_operand hx (mem_explicit hmem)

theorem contains_of_labelled (h : (s.convert e).result = .ok c) (hx : c.nfa.Labelled x) :
    s.alphabet.contains x = true := by
  obtain ⟨i, j, hj⟩ := hx
  obtain ⟨_, _, _, hm, _⟩ := convert_eq_ok h
  exact (Nfa.hereditary_over s.alphabet s.issued).ofPostfix hm i j x hj

theorem ofListing?_convert (h : (s.convert e).result = .ok c) :
    Nfa.ofListing? c.nfa.listing = some c.nfa.blurred := by
  obtain ⟨_, _, _, hm, _⟩ := convert_eq_ok h
  have hfragment : Nfa.Fragment c.nfa := (Construction.ofPostfix hm).1
  refine Nfa.ofListing?_listing hfragment.start?_eq hfragment.accept?_eq ?_
  -- a line feed parts symbols and is none
  refine Nfa.not_labelled_iff.1 fun hfeed => ?_
  have hsymbol := s.alphabet.symbolic '\n' (List.contains_iff_mem.1 (contains_of_labelled h hfeed))
  exact absurd hsymbol (by decide)

/-- The listing of a conversion is read back to the automaton with the edges for the symbol epsilon
taken for epsilon edges. Hence it is read back to the automaton itself, and every line shows an
epsilon for epsilon edges only, exactly if that symbol does not occur in the expression. -/
theorem listing_readable (h : (s.convert e).result = .ok c) :
    Nfa.ofListing? c.nfa.listing = some c.nfa.blurred ∧
    (Nfa.ofListing? c.nfa.listing = some c.nfa ↔ 'ε' ∉ e) ∧
    ((∀ q ∈ c.nfa.states.toList, ∀ x ∈ q.edges,
      (Shows (edgeLine q.id x) 'ε' ↔ x.label = .epsilon)) ↔ 'ε' ∉ e) := by
  have hlabels : (∀ q ∈ c.nfa.states.toList, ∀ x ∈ q.edges, x.label ≠ .symbol 'ε') ↔ 'ε' ∉ e := by
    rw [← Nfa.not_labelled_iff, labelled_convert h]
    exact not_congr (and_iff_left rfl)
  have hread := ofListing?_convert h
  refine ⟨hread, ?_, ?_⟩
  · rw [hread, Option.some_inj, Nfa.blurred_eq_self_iff, hlabels]
  · rw [← hlabels]
    exact forall₂_congr fun q _ => forall₂_congr fun x _ => shows_epsilon_iff

/-- Digits and dashes as symbols do no harm, and an epsilon in the alphabet does none either, as long
as it does not occur in the expression. -/
theorem listing_readable_dashes :
    ∃ c, (convert (.start (.extend .empty ['-', '>', '1', 'ε'])) ['-', '1', '*', '+', '>']).result =
        .ok c ∧
      Nfa.ofListing? c.nfa.listing = some c.nfa := by
  obtain ⟨c, hc⟩ : ∃ c, (convert (.start (.extend .empty ['-', '>', '1', 'ε']))
      ['-', '1', '*', '+', '>']).result = .ok c := ⟨_, rfl⟩
  exact ⟨c, hc, (listing_readable hc).2.1.2 (by decide)⟩

/-- The one edge is for the symbol, and the listing shows an epsilon edge. -/
theorem listing_confused :
    ∃ c, (RegexAutomata.convert ['ε'] ['ε']).value = .ok c ∧
      c.nfa = .symbol 0 'ε' ∧
      Nfa.ofListing? c.nfa.listing = some ((Nfa.ends 0).link 0 .epsilon 1) ∧
      Nfa.ofListing? c.nfa.listing ≠ some c.nfa ∧
      Shows (edgeLine 0 ⟨.symbol 'ε', 1⟩) 'ε' :=
  ⟨_, rfl, rfl, by decide, by decide, 0, 1, by decide⟩

end RegexAutomata.Session
