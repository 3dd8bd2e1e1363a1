import RegexAutomata.Proofs.Expression.Reader
import RegexAutomata.Proofs.Postfix.Height
import RegexAutomata.Proofs.Session.Stages

/-! Which expressions are accepted: those whose explicit form is the text of a draft that comes down
to one operand. A draft with as many missing operands as groups right behind a star can do so, too;
without such groups only sentences do. -/
namespace RegexAutomata
namespace Expression
variable {A : Alphabet} {t : List Char}

theorem Draft.Proper.role_operand {r : Rank} {b : Bool} {d : Draft r b} (h : d.Proper A) :
    d.Over fun c => role c = .operand :=
  d.over_imp (fun _ hc => Alphabet.role_of_contains hc) h.1

/-- In an accepted draft missing operands and groups behind a star make up for each other. -/
theorem Draft.gaps_eq_besides {r : Rank} {b : Bool} {d : Draft r b} (h : d.height? 0 = some 1) :
    d.gaps = d.besides := by
  have hcount := d.height?_count h
  omega

/-- The drafts of sentences. -/
theorem sentence_iff : Sentence A t ↔
    ∃ d : Draft .sum true, d.Proper A ∧ d.text = t ∧ d.gaps = 0 ∧ d.besides = 0 := by
  constructor
  · intro ⟨d, hover, hstars, htext⟩
    refine ⟨d.draft, ⟨d.over_draft.2 hover, d.starsApart_draft.2 hstars⟩, ?_, d.gaps_draft,
      d.besides_draft⟩
    rw [d.text_draft, htext]
  · intro ⟨d, hd, htext, hgaps, hbesides⟩
    obtain ⟨d', rfl⟩ := d.exists_derivation hgaps hbesides
    exact ⟨d', d'.over_draft.1 hd.1, d'.starsApart_draft.1 hd.2, by rw [← htext, d'.text_draft]⟩

theorem not_infix_of_sentence (h : Sentence A t) : ¬ ['*', '('] <:+: t := by
  obtain ⟨d, _, rfl, _, hbesides⟩ := sentence_iff.1 h
  rw [d.infix_text_iff, hbesides]
  exact fun h => h rfl

end Expression

namespace Session
open Expression
variable {s : Session} {e : List Char}

/-- An expression is accepted if its explicit form has a draft that comes down to one operand. -/
theorem forms_accepts_iff_draft : (∃ f, s.forms e = .ok f) ↔
    ∃ d : Draft .sum true, d.Proper s.alphabet ∧ d.text = explicit s.alphabet e ∧
      d.height? 0 = some 1 := by
  have hform {d : Draft .sum true} (hd : d.Proper s.alphabet) :
      Postfix.fault? (Postfix.ofExpression d.text) = none ↔ d.height? 0 = some 1 := by
    rw [d.ofExpression_text hd.role_operand, d.fault?_postOrder_eq_none_iff hd.role_operand]
  rw [forms_accepts_iff, fault?_eq_none_iff (spaced_explicit _ _)]
  constructor
  · intro ⟨⟨d, hd, htext⟩, hfault⟩
    rw [← htext] at hfault ⊢
    exact ⟨d, hd, rfl, (hform hd).1 hfault⟩
  · intro ⟨d, hd, htext, hheight⟩
    rw [← htext]
    exact ⟨⟨d, hd, rfl⟩, (hform hd).2 hheight⟩

/-- No bracket is left over for the count of operands. -/
theorem forms_ne_unexpectedSymbol (s : Session) (e : List Char) (c : Char) (position : Nat) :
    s.forms e ≠ .error (.postfixForm (.unexpectedSymbol c position)) := by
  intro h
  obtain ⟨f, hx, _⟩ | ⟨hfault, f, hx, hform⟩ := forms_eq_error h
  · cases hx
  · cases hx
    obtain ⟨d, hd, htext⟩ := (fault?_eq_none_iff (spaced_explicit _ _)).1 hfault
    rw [← htext, d.ofExpression_text hd.role_operand] at hform
    obtain ⟨hmem, hbracket⟩ := Postfix.bracket_of_fault? hform
    obtain hc | ⟨o, hc⟩ := d.role_of_mem_postOrder hd.role_operand c hmem
    · simp [hc] at hbracket
    · simp [hc] at hbracket

theorem forms_accepts_of_sentence (h : Sentence s.alphabet (explicit s.alphabet e)) :
    ∃ f, s.forms e = .ok f := by
  obtain ⟨d, hd, htext, hgaps, hbesides⟩ := sentence_iff.1 h
  have hheight := d.height?_of_gaps_eq_zero 0 hgaps
  rw [hbesides] at hheight
  exact forms_accepts_iff_draft.2 ⟨d, hd, htext, hheight⟩

theorem sentence_of_forms_accepts (h : ∃ f, s.forms e = .ok f)
    (hpair : ¬ ['*', '('] <:+: explicit s.alphabet e) :
    Sentence s.alphabet (explicit s.alphabet e) := by
  obtain ⟨d, hd, htext, hheight⟩ := forms_accepts_iff_draft.1 h
  have hbesides : d.besides = 0 := by
    rw [← htext, d.infix_text_iff] at hpair
    exact Decidable.not_not.1 hpair
  exact sentence_iff.2 ⟨d, hd, htext, (Draft.gaps_eq_besides hheight).trans hbesides, hbesides⟩

/-- What is accepted by one request is accepted by all. Every expression with a sentence as explicit
form is, and an accepted one has a sentence exactly if no group stands right behind a star there.
Where one does, every such group can make up for one missing operand. -/
theorem sentence_iff_accepted (s : Session) (e : List Char) :
    ((∃ x, s.explicit? e = .ok x) ↔ ∃ p, s.postfixForm? e = .ok p) ∧
    (s.alphabet.isEmpty = false →
      ((∃ x, s.explicit? e = .ok x) ↔ ∃ c, (s.convert e).result = .ok c)) ∧
    ((∃ x, s.explicit? e = .ok x) ↔
      ∃ d : Draft .sum true, d.Over (fun c => s.alphabet.contains c = true) ∧ d.StarsApart ∧
        d.text = explicit s.alphabet e ∧ d.height? 0 = some 1 ∧ d.gaps = d.besides) ∧
    (Sentence s.alphabet (explicit s.alphabet e) ↔
      (∃ x, s.explicit? e = .ok x) ∧ ¬ ['*', '('] <:+: explicit s.alphabet e) := by
  rw [explicit?_accepts_iff, postfixForm?_accepts_iff]
  refine ⟨Iff.rfl, fun hne => (convert_accepts_iff hne).symm, ?_, ?_⟩
  · rw [forms_accepts_iff_draft]
    constructor
    · intro ⟨d, hd, htext, hheight⟩
      exact ⟨d, hd.1, hd.2, htext, hheight, Draft.gaps_eq_besides hheight⟩
    · intro ⟨d, hover, hstars, htext, hheight, _⟩
      exact ⟨d, ⟨hover, hstars⟩, htext, hheight⟩
  · constructor
    · intro h
      exact ⟨forms_accepts_of_sentence h, not_infix_of_sentence h⟩
    · intro ⟨h, hpair⟩
      exact sentence_of_forms_accepts h hpair

/-- One operand is missing, and the group behind the star makes up for it. -/
theorem accepted_not_sentence :
    (∃ x, (start (Alphabet.empty.extend ['a', 'b'])).explicit? ['a', '*', '(', 'b', '+', ')'] =
      .ok x) ∧
    ¬ Sentence (Alphabet.empty.extend ['a', 'b'])
      (explicit (Alphabet.empty.extend ['a', 'b']) ['a', '*', '(', 'b', '+', ')']) := by
  refine ⟨⟨['a', '*', '(', 'b', '+', ')'], by decide⟩, fun h => ?_⟩
  exact not_infix_of_sentence h (by decide)

end Session
end RegexAutomata
