import RegexAutomata.Proofs.Postfix.Language
import RegexAutomata.Proofs.Session.Acceptance

/-! The language of a conversion. Whatever spelling of a derivation is converted, the automaton
accepts the language of the derivation. -/
namespace RegexAutomata
open Expression

/-- The words of a derivation are made of its operands. -/
theorem Expression.Derivation.forall_of_mem_language {p : Char → Prop} :
    ∀ {r : Rank} (d : Derivation r), d.Over p → ∀ w ∈ d.language, ∀ c ∈ w, p c
  | _, .operand c, h, w, hw => by
    obtain rfl : w = [c] := hw
    exact List.forall_mem_singleton.2 h
  | _, .group e, h, w, hw => e.forall_of_mem_language h w hw
  | _, .plain a, h, w, hw => a.forall_of_mem_language h w hw
  | _, .star f, h, w, hw => by
    obtain ⟨words, rfl, hwords⟩ := Language.mem_kstar.1 hw
    intro c hc
    obtain ⟨u, hu, hcu⟩ := List.mem_flatten.1 hc
    exact f.forall_of_mem_language h u (hwords u hu) c hcu
  | _, .single f, h, w, hw => f.forall_of_mem_language h w hw
  | _, .concat t f, h, w, hw => by
    obtain ⟨u, hu, v, hv, rfl⟩ := Language.mem_mul.1 hw
    have ht := t.forall_of_mem_language h.1 u hu
    have hf := f.forall_of_mem_language h.2 v hv
    exact List.forall_mem_append.2 ⟨ht, hf⟩
  | _, .alone t, h, w, hw => t.forall_of_mem_language h w hw
  | _, .union e t, h, w, hw => by
    cases Language.mem_add _ _ _ |>.1 hw with
    | inl hw => exact e.forall_of_mem_language h.1 w hw
    | inr hw => exact t.forall_of_mem_language h.2 w hw

namespace Session
variable {s : Session} {e : List Char} {d : Derivation .sum}

/-- A spelling of a derivation is accepted, with the text of the derivation as explicit form. -/
theorem forms_of_omits (hd : d.Over fun c => s.alphabet.contains c = true) (hs : d.StarsApart)
    (he : Omits s.alphabet d.text e) : s.forms e = .ok ⟨e, d.text, d.postOrder⟩ := by
  have hspaced : Spaced s.alphabet d.text := by
    rw [← d.text_draft]
    exact d.draft.spaced_text
  have hexplicit : explicit s.alphabet e = d.text := he.explicit_of_spaced hspaced
  have hproper : d.draft.Proper s.alphabet := ⟨d.over_draft.2 hd, d.starsApart_draft.2 hs⟩
  have hform : Postfix.ofExpression d.text = d.postOrder :=
    d.ofExpression_text (d.over_draft.1 hproper.role_operand)
  obtain ⟨f, hf⟩ := forms_accepts_of_sentence (s := s) (e := e) ⟨d, hd, hs, hexplicit.symm⟩
  obtain ⟨_, _, rfl⟩ := forms_eq_ok.1 hf
  rw [hf, hexplicit, hform]

theorem exists_convert_of_omits (hne : s.alphabet.isEmpty = false)
    (hd : d.Over fun c => s.alphabet.contains c = true) (hs : d.StarsApart)
    (he : Omits s.alphabet d.text e) :
    ∃ c, (s.convert e).result = .ok c ∧ c.explicit = d.text ∧
      ∀ w, c.dfa.accepts w = true ↔ w ∈ d.language := by
  have hforms := forms_of_omits hd hs he
  obtain ⟨m, D, hm, hD, hbuild⟩ := exists_built hforms
  have hlanguage : m.language = d.language := by
    have hrole := d.draft.over_imp (fun c hc => Alphabet.role_of_contains hc) (d.over_draft.2 hd)
    have hpostOrder := d.language?_postOrder (d.over_draft.1 hrole)
    rw [(Construction.ofPostfix hm).2, Option.some_inj] at hpostOrder
    exact hpostOrder
  refine ⟨_, by rw [convert_of_forms hne hforms, hbuild], rfl, fun w => ?_⟩
  change D.value.accepts w = true ↔ w ∈ d.language
  rw [Dfa.accepts_ofNfa? hD, ← hlanguage]
  refine and_iff_right_of_imp fun hw => ?_
  rw [show m.Spells w ↔ w ∈ m.language from Iff.rfl, hlanguage] at hw
  exact d.forall_of_mem_language hd w hw

end Session

/-- Every spelling of every derivation over a declared alphabet is converted to an automaton that
accepts exactly the words of the derivation. -/
theorem exists_convert_language {declaration e : List Char} {A : Alphabet}
    (hA : Alphabet.ofText declaration = .ok A) (hne : A.isEmpty = false) (d : Derivation .sum)
    (hd : d.Over fun c => A.contains c = true) (hs : d.StarsApart) (he : Omits A d.text e) :
    ∃ c, (convert declaration e).value = .ok c ∧ c.explicit = d.text ∧
      ∀ w, c.dfa.accepts w = true ↔ w ∈ d.language := by
  obtain ⟨c, hc, hexplicit, haccepts⟩ :=
    Session.exists_convert_of_omits (s := .start A) hne hd hs he
  refine ⟨c, ?_, hexplicit, haccepts⟩
  simp only [convert, Session.ofText, hA]
  exact hc

def endingInA : Derivation .sum :=
  .alone (.concat (.single (.star (.plain (.group (.union
    (.alone (.single (.plain (.operand 'a')))) (.single (.plain (.operand 'b'))))))))
      (.plain (.operand 'a')))

/-- The dot in front of the last letter is left out. -/
theorem exists_convert_endingInA :
    ∃ c, (convert ['a', ',', 'b'] ['(', 'a', '+', 'b', ')', '*', 'a']).value = .ok c ∧
      c.explicit = ['(', 'a', '+', 'b', ')', '*', '.', 'a'] ∧
        ∀ w, c.dfa.accepts w = true ↔ w ∈ endingInA.language := by
  have hA : Alphabet.ofText ['a', ',', 'b'] = .ok (Alphabet.empty.extend ['a', ',', 'b']) := rfl
  have ha : (Alphabet.empty.extend ['a', ',', 'b']).contains 'a' = true := by decide
  have hb : (Alphabet.empty.extend ['a', ',', 'b']).contains 'b' = true := by decide
  have hd : endingInA.Over fun c => (Alphabet.empty.extend ['a', ',', 'b']).contains c = true :=
    ⟨⟨ha, hb⟩, ha⟩
  have hs : endingInA.StarsApart := ⟨⟨trivial, trivial⟩, trivial⟩
  have he : Omits (Alphabet.empty.extend ['a', ',', 'b']) endingInA.text
      ['(', 'a', '+', 'b', ')', '*', 'a'] :=
    .keep '(' (.keep 'a' (.keep '+' (.keep 'b' (.keep ')'
      (.leaveOut (p := '*') (by decide) (.keep 'a' .nil))))))
  exact exists_convert_language hA (by decide) endingInA hd hs he

end RegexAutomata
