import RegexAutomata.Proofs.Dfa.Reading
import RegexAutomata.Proofs.Expression.Faultless
import RegexAutomata.Proofs.Nfa.Construction
import RegexAutomata.Proofs.Postfix.Arrangement
import RegexAutomata.Proofs.Postfix.Height
import RegexAutomata.Session

/-! The stages of a conversion. An expression that passes the checks gets through the stages behind
them, so that all requests accept the same expressions. -/
namespace RegexAutomata.Session
open Expression
variable {s : Session} {e : List Char} {f : Forms}

theorem forms_eq_ok : s.forms e = .ok f ↔
    fault? s.alphabet (explicit s.alphabet e) = none ∧
      Postfix.fault? (Postfix.ofExpression (explicit s.alphabet e)) = none ∧
        f = ⟨e, explicit s.alphabet e, Postfix.ofExpression (explicit s.alphabet e)⟩ := by
  simp only [forms]
  cases fault? s.alphabet (explicit s.alphabet e) with
  | some x => simp
  | none =>
    cases Postfix.fault? (Postfix.ofExpression (explicit s.alphabet e)) with
    | some x => simp
    | none =>
      simp only [Except.ok.injEq, true_and]
      exact eq_comm

theorem forms_eq_error {x : ConversionError} (h : s.forms e = .error x) :
    (∃ f, x = .expression f ∧ fault? s.alphabet (explicit s.alphabet e) = some f) ∨
      (fault? s.alphabet (explicit s.alphabet e) = none ∧ ∃ f, x = .postfixForm f ∧
        Postfix.fault? (Postfix.ofExpression (explicit s.alphabet e)) = some f) := by
  simp only [forms] at h
  cases hfault : fault? s.alphabet (explicit s.alphabet e) with
  | some f =>
    simp only [hfault, Except.error.injEq] at h
    exact .inl ⟨f, h.symm, rfl⟩
  | none =>
    cases hform : Postfix.fault? (Postfix.ofExpression (explicit s.alphabet e)) with
    | none => simp [hfault, hform] at h
    | some f =>
      simp only [hfault, hform, Except.error.injEq] at h
      exact .inr ⟨rfl, f, h.symm, rfl⟩

theorem forms_accepts_iff : (∃ f, s.forms e = .ok f) ↔
    fault? s.alphabet (explicit s.alphabet e) = none ∧
      Postfix.fault? (Postfix.ofExpression (explicit s.alphabet e)) = none := by
  simp only [forms_eq_ok]
  constructor
  · intro ⟨_, hfault, hform, _⟩
    exact ⟨hfault, hform⟩
  · intro ⟨hfault, hform⟩
    exact ⟨_, hfault, hform, rfl⟩

theorem explicit?_accepts_iff : (∃ x, s.explicit? e = .ok x) ↔ ∃ f, s.forms e = .ok f := by
  rw [explicit?]
  cases s.forms e <;> simp [Except.map]

theorem postfixForm?_accepts_iff : (∃ p, s.postfixForm? e = .ok p) ↔ ∃ f, s.forms e = .ok f := by
  rw [postfixForm?]
  cases s.forms e <;> simp [Except.map]

/-- Behind the checks nothing fails. -/
theorem exists_built (h : s.forms e = .ok f) :
    ∃ m d, (Nfa.ofPostfix s.alphabet s.issued f.postfixForm).result = .ok m ∧
      Dfa.ofNfa? s.alphabet m = some d ∧ (s.build f).result = .ok ⟨f, m, d.value⟩ := by
  obtain ⟨hfault, hform, hf⟩ := forms_eq_ok.1 h
  have hallows : ∀ c ∈ f.postfixForm, s.alphabet.allows c = true := by
    intro c hc
    rw [hf] at hc
    exact allows_of_fault?_eq_none hfault c (Postfix.mem_ofExpression hc)
  have hnone : Postfix.fault? f.postfixForm = none := by rw [hf, hform]
  obtain ⟨m, hm⟩ := Nfa.exists_ofPostfix_eq s.alphabet s.issued hallows hnone
  obtain ⟨log, hd⟩ := Dfa.exists_ofNfa?_eq s.alphabet (Construction.ofPostfix hm).1.start?_eq
  refine ⟨m, _, hm, hd, ?_⟩
  simp only [build, assemble, hm, Except.mapError, determinize, hd]

theorem convert_of_forms (hne : s.alphabet.isEmpty = false) (h : s.forms e = .ok f) :
    s.convert e = s.build f := by
  simp [convert, hne, h]

theorem convert_of_forms_error {x : ConversionError} (hne : s.alphabet.isEmpty = false)
    (h : s.forms e = .error x) : s.convert e = ⟨s, [], .error x⟩ := by
  simp [convert, hne, h]

theorem convert_of_isEmpty (h : s.alphabet.isEmpty = true) :
    s.convert e = ⟨s, [], .error (.alphabet .empty)⟩ := by
  simp [convert, h]

/-- Over an empty alphabet some check fails: an accepted expression has an operand, and that is a
symbol. -/
theorem exists_forms_error (h : s.alphabet.isEmpty = true) : ∃ x, s.forms e = .error x := by
  cases hf : s.forms e with
  | error x => exact ⟨x, rfl⟩
  | ok f =>
    obtain ⟨hfault, hform, _⟩ := forms_eq_ok.1 hf
    obtain ⟨c, hc, hrole⟩ := Postfix.exists_operand hform
    have hallows := allows_of_fault?_eq_none hfault c (Postfix.mem_ofExpression hc)
    have hne := Alphabet.isEmpty_eq_false_iff.2 ⟨c, Alphabet.contains_of_allows hallows hrole⟩
    rw [h] at hne
    cases hne

/-- A conversion over an alphabet with symbols comes to the forms that the checks come to. -/
theorem forms_eq_map_convert (hne : s.alphabet.isEmpty = false) :
    s.forms e = (s.convert e).result.map Conversion.toForms := by
  cases h : s.forms e with
  | error x =>
    rw [convert_of_forms_error hne h]
    rfl
  | ok f =>
    obtain ⟨m, d, _, _, hbuild⟩ := exists_built h
    rw [convert_of_forms hne h, hbuild]
    rfl

theorem session_build (s : Session) (f : Forms) :
    (s.build f).session = (s.assemble f.postfixForm).session := by
  rw [build]
  cases (s.assemble f.postfixForm).result with
  | error x => rfl
  | ok m => cases h : s.determinize m <;> simp only [h]

/-- A conversion that fails has reported nothing and has not begun to build. -/
theorem convert_of_error {x : ConversionError} (h : (s.convert e).result = .error x) :
    s.convert e = ⟨s, [], .error x⟩ ∧ (x = .alphabet .empty ∨ s.forms e = .error x) := by
  cases hempty : s.alphabet.isEmpty with
  | true =>
    rw [convert_of_isEmpty hempty] at h ⊢
    cases h
    exact ⟨rfl, .inl rfl⟩
  | false =>
    cases hf : s.forms e with
    | error x' =>
      rw [convert_of_forms_error hempty hf] at h ⊢
      cases h
      exact ⟨rfl, .inr rfl⟩
    | ok f =>
      obtain ⟨m, d, _, _, hbuild⟩ := exists_built hf
      rw [convert_of_forms hempty hf, hbuild] at h
      cases h

theorem convert_eq_error {x : ConversionError} (h : (s.convert e).result = .error x) :
    (s.convert e).session = s ∧ (x = .alphabet .empty ∨ s.forms e = .error x) :=
  (convert_of_error h).imp_left (congrArg Reply.session)

/-- The kind of an error tells which check has failed first. -/
theorem kind_of_convert_error {x : ConversionError} (h : (s.convert e).result = .error x) :
    x.kind = if s.alphabet.isEmpty then .alphabet
      else ((fault? s.alphabet (explicit s.alphabet e)).map Fault.kind).getD .malformedPostfix := by
  cases hempty : s.alphabet.isEmpty with
  | true =>
    rw [convert_of_isEmpty hempty] at h
    cases h
    rfl
  | false =>
    have hforms : s.forms e = .error x := by
      rw [forms_eq_map_convert hempty, h]
      rfl
    obtain ⟨f, rfl, hfault⟩ | ⟨hfault, f, rfl, _⟩ := forms_eq_error hforms
    · simp [hfault, ConversionError.kind]
    · simp [hfault, ConversionError.kind]

/-- A conversion that succeeds has been through all stages. -/
theorem convert_eq_ok {c : Conversion} (h : (s.convert e).result = .ok c) :
    s.alphabet.isEmpty = false ∧ s.forms e = .ok c.toForms ∧ s.convert e = s.build c.toForms ∧
      (Nfa.ofPostfix s.alphabet s.issued c.postfixForm).result = .ok c.nfa ∧
      ∃ d, Dfa.ofNfa? s.alphabet c.nfa = some d ∧ d.value = c.dfa := by
  cases hempty : s.alphabet.isEmpty with
  | true =>
    rw [convert_of_isEmpty hempty] at h
    cases h
  | false =>
    cases hf : s.forms e with
    | error x =>
      rw [convert_of_forms_error hempty hf] at h
      cases h
    | ok f =>
      obtain ⟨m, d, hm, hd, hbuild⟩ := exists_built hf
      rw [convert_of_forms hempty hf, hbuild] at h
      cases h
      exact ⟨rfl, rfl, convert_of_forms hempty hf, hm, d, hd, rfl⟩

theorem convert_accepts_iff (hne : s.alphabet.isEmpty = false) :
    (∃ c, (s.convert e).result = .ok c) ↔ ∃ f, s.forms e = .ok f := by
  rw [forms_eq_map_convert hne]
  cases (s.convert e).result <;> simp [Except.map]

end RegexAutomata.Session
