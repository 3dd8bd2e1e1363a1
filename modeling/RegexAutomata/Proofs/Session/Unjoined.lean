import RegexAutomata.Proofs.Expression.Unjoined
import RegexAutomata.Proofs.Session.Acceptance

/-! Sentences from which dots behind stars are left out. Every such dot leaves one more operand, and
counting comes to its end nevertheless, so that exactly their number is reported. -/
namespace RegexAutomata
open Expression
variable {A : Alphabet} {s : Session} {t u : List Char} {k : Nat}

/-- A draft without missing operands leaves one operand, and one for each group behind a star. -/
theorem Expression.Draft.fault?_postOrder_of_gaps_eq_zero {r : Rank} {b : Bool} (d : Draft r b)
    (h : d.Over fun c => role c = .operand) (hgaps : d.gaps = 0) :
    Postfix.fault? d.postOrder = Postfix.leftover? (d.besides + 1) := by
  have hdepth := d.depthFrom_postOrder h 0 0
  rw [d.height?_of_gaps_eq_zero 0 hgaps, Nat.zero_add, Nat.add_comm] at hdepth
  rw [Postfix.fault?]
  cases hcount : Postfix.depthFrom 0 0 d.postOrder with
  | error f => simp [hcount, Except.toOption] at hdepth
  | ok k => simpa [hcount, Except.toOption] using congrArg (Option.map Postfix.leftover?) hdepth

/-- What is left when `k` dots are gone is the text of a draft with `k` groups behind a star, and no
operand of it is missing. -/
theorem Expression.exists_draft_of_unjoins (ht : Sentence A t) (hu : Unjoins k t u) :
    ∃ d : Draft .sum true, d.Proper A ∧ d.text = u ∧ d.gaps = 0 ∧ d.besides = k := by
  obtain ⟨d, hd, rfl, hgaps, hbesides⟩ := sentence_iff.1 ht
  have hfault : fault? A u = none := hu.fault?_eq_none (d.fault?_text hd.1 hd.2)
  obtain ⟨d', hd', rfl⟩ := exists_draft_of_fault?_eq_none hfault (hu.spaced d.spaced_text)
  -- pairs of a star and a parenthesis number the groups, and operands then number the gaps
  have hpairs := hu.groupsBehindStar_eq
  rw [d.groupsBehindStar_text, d'.groupsBehindStar_text, hbesides, Nat.zero_add] at hpairs
  have hoperands := hu.countP_eq (p := fun c => role c == .operand) rfl
  have hdots := hu.countP_add (p := fun c => c == '+' || c == '.') rfl
  have hcount := d.countP_text hd.role_operand
  have hcount' := d'.countP_text hd'.role_operand
  exact ⟨d', hd', rfl, by omega, hpairs⟩

namespace Session

theorem forms_of_unjoins (ht : Sentence s.alphabet t) (hu : Unjoins k t u) (hk : 1 ≤ k) :
    s.forms u = .error (.postfixForm (.unjoinedOperands (k + 1))) := by
  obtain ⟨d, hd, rfl, hgaps, rfl⟩ := exists_draft_of_unjoins ht hu
  have hfault : fault? s.alphabet d.text = none := d.fault?_text hd.1 hd.2
  have hform : Postfix.fault? (Postfix.ofExpression d.text) =
      some (.unjoinedOperands (d.besides + 1)) := by
    rw [d.ofExpression_text hd.role_operand,
      d.fault?_postOrder_of_gaps_eq_zero hd.role_operand hgaps]
    obtain ⟨j, hj⟩ := Nat.exists_eq_add_of_le' hk
    rw [hj]
    rfl
  simp only [forms, explicit_of_spaced d.spaced_text, hfault, hform]

/-- Over an empty alphabet there is no sentence. -/
theorem isEmpty_eq_false_of_sentence (ht : Sentence s.alphabet t) : s.alphabet.isEmpty = false := by
  obtain ⟨d, _, htext, _⟩ := sentence_iff.1 ht
  have hexplicit : explicit s.alphabet t = t := by
    rw [← htext, explicit_of_spaced d.spaced_text]
  obtain ⟨f, hf⟩ := forms_accepts_of_sentence (s := s) (e := t) (hexplicit.symm ▸ ht)
  rw [Bool.eq_false_iff]
  intro hempty
  obtain ⟨x, hx⟩ := exists_forms_error (e := t) hempty
  rw [hf] at hx
  cases hx

/-- Every request refuses a sentence without some of the dots between a star and a group, and names
one operand more than there are dots missing. -/
theorem unjoined_refused (s : Session) (t u : List Char) (k : Nat) (ht : Sentence s.alphabet t)
    (hu : Unjoins k t u) (hk : 1 ≤ k) :
    s.explicit? u = .error (.postfixForm (.unjoinedOperands (k + 1))) ∧
    s.postfixForm? u = .error (.postfixForm (.unjoinedOperands (k + 1))) ∧
    (s.convert u).result = .error (.postfixForm (.unjoinedOperands (k + 1))) := by
  have hforms := forms_of_unjoins ht hu hk
  have hconvert := convert_of_forms_error (isEmpty_eq_false_of_sentence ht) hforms
  simp [explicit?, postfixForm?, hforms, hconvert, Except.map]

/-- One dot is gone in front of a group that is followed by another sum. -/
theorem unjoined_refused_instance :
    Sentence (Alphabet.empty.extend ['a']) ['a', '*', '.', '(', 'a', ')', '+', 'a'] ∧
    Unjoins 1 ['a', '*', '.', '(', 'a', ')', '+', 'a'] ['a', '*', '(', 'a', ')', '+', 'a'] ∧
    ((start (Alphabet.empty.extend ['a'])).convert ['a', '*', '(', 'a', ')', '+', 'a']).result =
      .error (.postfixForm (.unjoinedOperands 2)) := by
  have ha : (Alphabet.empty.extend ['a']).contains 'a' = true := by decide
  have ht : Sentence (Alphabet.empty.extend ['a']) ['a', '*', '.', '(', 'a', ')', '+', 'a'] := by
    refine ⟨.union (.alone (.concat (.single (.star (.plain (.operand 'a'))))
      (.plain (.group (.alone (.single (.plain (.operand 'a')))))))) (.single (.plain (.operand 'a'))),
      ⟨⟨ha, ha⟩, ha⟩, ⟨⟨trivial, trivial⟩, trivial⟩, rfl⟩
  have hu : Unjoins 1 ['a', '*', '.', '(', 'a', ')', '+', 'a'] ['a', '*', '(', 'a', ')', '+', 'a'] :=
    .keep 'a' (.leaveOut (.keep 'a' (.keep ')' (.keep '+' (.keep 'a' .nil)))))
  exact ⟨ht, hu, (unjoined_refused (start _) _ _ 1 ht hu (Nat.le_refl 1)).2.2⟩

end Session
end RegexAutomata
