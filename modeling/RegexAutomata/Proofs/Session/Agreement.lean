import RegexAutomata.Proofs.Session.Stages

/-! The requests of a session agree. Asking for the explicit form, for the postfix form and for a
conversion succeeds for the same expressions and otherwise reports the same error. -/
namespace RegexAutomata.Session
variable {s : Session} {e : List Char}

theorem explicit?_eq_map_convert (hne : s.alphabet.isEmpty = false) :
    s.explicit? e = (s.convert e).result.map fun c => c.explicit := by
  rw [explicit?, forms_eq_map_convert hne]
  cases (s.convert e).result <;> rfl

theorem postfixForm?_eq_map_convert (hne : s.alphabet.isEmpty = false) :
    s.postfixForm? e = (s.convert e).result.map fun c => c.postfixForm := by
  rw [postfixForm?, forms_eq_map_convert hne]
  cases (s.convert e).result <;> rfl

/-- Whatever the alphabet and however many ids are issued, the three requests accept the same
expressions and give the same forms. Over an alphabet with symbols they refuse with the same error.
Over an empty one nothing is accepted, and a conversion blames the alphabet. -/
theorem requests_agree (s : Session) (e : List Char) :
    ((∃ x, s.explicit? e = .ok x) ↔ ∃ p, s.postfixForm? e = .ok p) ∧
    ((∃ x, s.explicit? e = .ok x) ↔ ∃ c, (s.convert e).result = .ok c) ∧
    (∀ c, (s.convert e).result = .ok c →
      s.explicit? e = .ok c.explicit ∧ s.postfixForm? e = .ok c.postfixForm) ∧
    (s.alphabet.isEmpty = false → ∀ x,
      (s.explicit? e = .error x ↔ (s.convert e).result = .error x) ∧
      (s.postfixForm? e = .error x ↔ (s.convert e).result = .error x)) ∧
    (s.alphabet.isEmpty = true → (s.convert e).result = .error (.alphabet .empty) ∧
      ∃ x, s.explicit? e = .error x ∧ s.postfixForm? e = .error x) := by
  cases hempty : s.alphabet.isEmpty with
  | true =>
    obtain ⟨x, hx⟩ := exists_forms_error (e := e) hempty
    have hexplicit : s.explicit? e = .error x := by simp [explicit?, hx, Except.map]
    have hpostfix : s.postfixForm? e = .error x := by simp [postfixForm?, hx, Except.map]
    rw [convert_of_isEmpty hempty, hexplicit, hpostfix]
    simp
  | false =>
    rw [explicit?_eq_map_convert hempty, postfixForm?_eq_map_convert hempty]
    cases (s.convert e).result with
    | error x => simp [Except.map]
    | ok c => simp [Except.map]

/-- A group behind a star is refused with one error after three ids are issued, and an empty group
over an empty alphabet with another. -/
theorem requests_agree_refused :
    ((Session.mk (.extend .empty ['a']) 3).alphabet.isEmpty = false ∧
      ((Session.mk (.extend .empty ['a']) 3).convert ['a', '*', '(', 'a', ')']).result =
        .error (.postfixForm (.unjoinedOperands 2))) ∧
    ((start .empty).alphabet.isEmpty = true ∧
      ((start .empty).convert ['(', ')']).result = .error (.alphabet .empty)) := by
  have hsymbols : (Session.mk (.extend .empty ['a']) 3).alphabet.isEmpty = false := by decide
  have hnone : (start .empty).alphabet.isEmpty = true := by decide
  obtain ⟨_, _, _, hrefused, _⟩ := requests_agree ⟨.extend .empty ['a'], 3⟩ ['a', '*', '(', 'a', ')']
  obtain ⟨_, _, _, _, hempty⟩ := requests_agree (start .empty) ['(', ')']
  exact ⟨⟨hsymbols, (hrefused hsymbols _).1.1 (by decide)⟩, hnone, (hempty hnone).1⟩

end RegexAutomata.Session
