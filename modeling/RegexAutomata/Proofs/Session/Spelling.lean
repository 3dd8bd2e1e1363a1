import RegexAutomata.Proofs.Session.Stages

/-! Spellings of one expression convert alike. The explicit form is one of them, and every dot that
joins two operands may be left out or written. -/
namespace RegexAutomata
open Expression
variable {s : Session} {e u : List Char}

def Conversion.withExpression (e : List Char) (c : Conversion) : Conversion :=
  { c with expression := e }

namespace Session

theorem forms_respelled (h : explicit s.alphabet u = explicit s.alphabet e) :
    s.forms u = (s.forms e).map fun f => { f with expression := u } := by
  simp only [forms, h]
  cases fault? s.alphabet (explicit s.alphabet e) with
  | some f => rfl
  | none => cases Postfix.fault? (Postfix.ofExpression (explicit s.alphabet e)) <;> rfl

/-- Building looks at the postfix form alone. -/
theorem build_respelled (s : Session) (f : Forms) (u : List Char) :
    (s.build { f with expression := u }).session = (s.build f).session ∧
      (s.build { f with expression := u }).result =
        (s.build f).result.map (Conversion.withExpression u) := by
  refine ⟨by rw [session_build, session_build], ?_⟩
  simp only [build]
  cases (s.assemble f.postfixForm).result with
  | error x => rfl
  | ok m =>
    simp only
    cases s.determinize m <;> rfl

/-- Expressions with one explicit form are converted alike, or refused with one error. -/
theorem convert_respelled (h : explicit s.alphabet u = explicit s.alphabet e) :
    (s.convert u).session = (s.convert e).session ∧
      (s.convert u).result = (s.convert e).result.map (Conversion.withExpression u) := by
  cases hempty : s.alphabet.isEmpty with
  | true =>
    rw [convert_of_isEmpty hempty, convert_of_isEmpty hempty]
    exact ⟨rfl, rfl⟩
  | false =>
    have hforms := forms_respelled h
    cases hf : s.forms e with
    | error x =>
      rw [hf] at hforms
      rw [convert_of_forms_error hempty hf, convert_of_forms_error hempty hforms]
      exact ⟨rfl, rfl⟩
    | ok f =>
      rw [hf] at hforms
      rw [convert_of_forms hempty hf, convert_of_forms hempty hforms]
      exact build_respelled s f u

/-- The explicit form is a normal form. Making an expression explicit puts dots between its
neighbours and changes nothing else, a second time it changes nothing at all, and dots that join
operands may be left out of the expression before. All these spellings convert alike. -/
theorem explicit_normal_form (s : Session) (e : List Char) :
    explicit s.alphabet (explicit s.alphabet e) = explicit s.alphabet e ∧
    Omits s.alphabet (explicit s.alphabet e) e ∧
    ∀ D : Nat → Bool, (∀ i, D i = true → JoiningDot s.alphabet e i) →
      explicit s.alphabet (without D e) = explicit s.alphabet e ∧
      ∀ u ∈ [explicit s.alphabet e, without D e],
        (s.convert u).session = (s.convert e).session ∧
        (s.convert u).result = (s.convert e).result.map (Conversion.withExpression u) := by
  have hidem := explicit_explicit s.alphabet e
  refine ⟨hidem, omits_explicit s.alphabet e, fun D hD => ?_⟩
  have hwithout := (omits_without D hD).explicit_eq
  refine ⟨hwithout, fun u hu => ?_⟩
  obtain rfl | hu := List.mem_cons.1 hu
  · exact convert_respelled hidem
  · obtain rfl := List.mem_singleton.1 hu
    exact convert_respelled hwithout

/-- Both dots are left out, one of them between a star and a symbol. -/
theorem explicit_normal_form_starred :
    (∀ i, (i == 1 || i == 4) = true →
      JoiningDot (.extend .empty ['a', 'b']) ['a', '.', 'b', '*', '.', 'a'] i) ∧
    without (fun i => i == 1 || i == 4) ['a', '.', 'b', '*', '.', 'a'] = ['a', 'b', '*', 'a'] ∧
    ∃ c, ((Session.mk (.extend .empty ['a', 'b']) 3).convert
        ['a', '.', 'b', '*', '.', 'a']).result = .ok c ∧
      ((Session.mk (.extend .empty ['a', 'b']) 3).convert ['a', 'b', '*', 'a']).result =
        .ok (c.withExpression ['a', 'b', '*', 'a']) := by
  have hdots : ∀ i, (i == 1 || i == 4) = true →
      JoiningDot (.extend .empty ['a', 'b']) ['a', '.', 'b', '*', '.', 'a'] i := by
    intro i hi
    obtain rfl | rfl : i = 1 ∨ i = 4 := by simpa using hi
    · exact ⟨[], 'a', 'b', ['*', '.', 'a'], rfl, rfl, by decide⟩
    · exact ⟨['a', '.', 'b'], '*', 'a', [], rfl, rfl, by decide⟩
  have hwithout : without (fun i => i == 1 || i == 4) ['a', '.', 'b', '*', '.', 'a'] =
      ['a', 'b', '*', 'a'] := rfl
  obtain ⟨_, _, hspellings⟩ := explicit_normal_form ⟨.extend .empty ['a', 'b'], 3⟩
    ['a', '.', 'b', '*', '.', 'a']
  obtain ⟨c, hc⟩ : ∃ c, ((Session.mk (.extend .empty ['a', 'b']) 3).convert
      ['a', '.', 'b', '*', '.', 'a']).result = .ok c := ⟨_, rfl⟩
  have hresult := ((hspellings _ hdots).2 _ (List.mem_cons_of_mem _ List.mem_cons_self)).2
  rw [hc, hwithout] at hresult
  exact ⟨hdots, hwithout, c, hc, hresult⟩

end Session
end RegexAutomata
