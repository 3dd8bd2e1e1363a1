import RegexAutomata.Proofs.Dfa.Symbols
import RegexAutomata.Proofs.Session.Stages

/-! Only the symbols that are used matter. Every stage asks the alphabet about the characters of the
expression alone, except for the exploration, which passes over symbols without edges. -/
namespace RegexAutomata
open Alphabet
variable {A B : Alphabet} {e t t' : List Char} {n : Nat}

namespace Expression

theorem explicit_congr (h : A.AgreeOn B e) : explicit A e = explicit B e := by
  induction e with
  | nil => rfl
  | cons p e ih =>
    obtain ⟨hp, hrest⟩ := List.forall_mem_cons.1 h
    cases e with
    | nil => rfl
    | cons c e =>
      have hc : A.contains c = B.contains c := hrest c List.mem_cons_self
      rw [explicit, explicit, joined, joined, hp, hc, ih hrest]

theorem mem_of_mem_explicit {c : Char} (h : c ∈ explicit A e) : c ∈ e ∨ c = '.' := by
  induction e with
  | nil => exact .inl h
  | cons p e ih =>
    rw [explicit_cons, dotBefore] at h
    grind

theorem mem_explicit {c : Char} (h : c ∈ e) : c ∈ explicit A e := by
  induction e with
  | nil => exact h
  | cons p e ih =>
    rw [explicit_cons]
    grind

/-- The dots that are put in are symbols of no alphabet. -/
theorem agreeOn_explicit (h : A.AgreeOn B e) : A.AgreeOn B (explicit A e) := by
  intro c hc
  obtain hc | rfl := mem_of_mem_explicit hc
  · exact h c hc
  · rw [contains_of_isReserved (by decide), contains_of_isReserved (by decide)]

theorem faultFrom?_congr (position depth : Nat) (before : Option Char) (h : A.AgreeOn B t) :
    faultFrom? A position depth before t = faultFrom? B position depth before t := by
  induction t generalizing position depth before with
  | nil => rfl
  | cons c t ih =>
    obtain ⟨hc, ht⟩ := List.forall_mem_cons.1 h
    rw [faultFrom?, faultFrom?, ih _ _ _ ht, Place.fault?, Place.fault?, allows, allows, hc]

theorem fault?_congr (h : A.AgreeOn B t) : fault? A t = fault? B t := by
  cases t with
  | nil => rfl
  | cons c t => exact faultFrom?_congr 0 0 none h

end Expression

theorem Assembly.run_congr (position : Nat) (w : Assembly) (h : A.AgreeOn B t) :
    w.run A position t = w.run B position t := by
  induction t generalizing position w with
  | nil => rfl
  | cons c t ih =>
    obtain ⟨hc, ht⟩ := List.forall_mem_cons.1 h
    have hstep : w.step A position c = w.step B position c := by rw [step, step, hc]
    rw [run, run, hstep]
    cases w.step B position c with
    | error f => rfl
    | ok w' => simp only [ih _ w' ht]

theorem Nfa.ofPostfix_congr (h : A.AgreeOn B t) : ofPostfix A n t = ofPostfix B n t := by
  rw [ofPostfix, ofPostfix, Assembly.run_congr 0 _ h]

def Conversion.withAlphabet (A : Alphabet) (c : Conversion) : Conversion :=
  { c with dfa := c.dfa.withAlphabet A }

namespace Session
open Expression
variable {c : Conversion} {f : Forms}

theorem forms_congr (h : A.AgreeOn B e) :
    (Session.mk B n).forms e = (Session.mk A n).forms e := by
  simp only [forms, ← explicit_congr h, fault?_congr (agreeOn_explicit h)]

/-- An accepted expression has no characters but symbols and reserved ones. -/
theorem contains_of_forms (h : (Session.mk A n).forms e = .ok f) :
    ∀ c ∈ e, isReserved c = false → A.contains c = true := by
  intro c hc hr
  have hallows := allows_of_fault?_eq_none (forms_eq_ok.1 h).1 c (mem_explicit hc)
  exact contains_of_allows hallows (role_eq_operand_iff.2 hr)

theorem build_of_within (h : A.Within B) (he : A.AgreeOn B e)
    (hf : (Session.mk A n).forms e = .ok f) : ((Session.mk B n).build f).result =
      ((Session.mk A n).build f).result.map (Conversion.withAlphabet B) := by
  obtain ⟨m, d, hm, hd, hbuild⟩ := exists_built hf
  obtain ⟨m', d', hm', hd', hbuild'⟩ := exists_built ((forms_congr he).trans hf)
  have hform : A.AgreeOn B f.postfixForm := by
    obtain ⟨_, _, rfl⟩ := forms_eq_ok.1 hf
    exact fun c hc => agreeOn_explicit he c (Postfix.mem_ofExpression hc)
  obtain rfl : m = m' := by
    rw [Nfa.ofPostfix_congr hform, hm'] at hm
    exact (Except.ok.inj hm).symm
  have hover : m.Over A := (Nfa.hereditary_over A n).ofPostfix hm
  rw [Dfa.ofNfa?_of_within h hover, hd, Option.map_some, Option.some.injEq] at hd'
  rw [hbuild, hbuild', ← hd']
  rfl

/-- More symbols that are not used change neither errors nor conversions, but for the list of
symbols. -/
theorem result_convert_of_within (h : A.Within B) (he : A.AgreeOn B e) (hne : A.isEmpty = false) :
    ((Session.mk B n).convert e).result =
      ((Session.mk A n).convert e).result.map (Conversion.withAlphabet B) := by
  have hneB := h.isEmpty_eq_false hne
  cases hf : (Session.mk A n).forms e with
  | error x =>
    rw [convert_of_forms_error hne hf, convert_of_forms_error hneB ((forms_congr he).trans hf)]
    rfl
  | ok f =>
    rw [convert_of_forms hne hf, convert_of_forms hneB ((forms_congr he).trans hf)]
    exact build_of_within h he hf

theorem alphabet_convert {s : Session} (h : (s.convert e).result = .ok c) :
    c.dfa.alphabet = s.alphabet.toList := by
  obtain ⟨_, _, _, _, d, hd, hvalue⟩ := convert_eq_ok h
  obtain ⟨i, _, rfl⟩ := Option.map_eq_some_iff.1 hd
  rw [← hvalue]

/-- What converts over an alphabet converts over every larger one to the same forms, the same
automaton and the same states and transitions, and the other way round if the smaller one has all
symbols that are used. A declaration may be reordered, repeated and parted in any way. -/
theorem symbols_immaterial :
    (∀ (A B : Alphabet) (n : Nat) (e : List Char), A.Within B →
      (∀ c, ((Session.mk A n).convert e).result = .ok c →
        ((Session.mk B n).convert e).result = .ok (c.withAlphabet B)) ∧
      ((∀ x ∈ e, isReserved x = false → A.contains x = true) → ∀ c,
        ((Session.mk B n).convert e).result = .ok c →
          ((Session.mk A n).convert e).result = .ok (c.withAlphabet A))) ∧
    ∀ t t' : List Char, (∀ x, isSeparator x = false → (x ∈ t ↔ x ∈ t')) →
      ∀ A, Alphabet.ofText t = .ok A →
        Alphabet.ofText t' = .ok A ∧ ∀ e, RegexAutomata.convert t' e = RegexAutomata.convert t e := by
  refine ⟨fun A B n e h => ⟨fun c hc => ?_, fun he c hc => ?_⟩, fun t t' h A hA => ?_⟩
  · obtain ⟨hne, hf, _⟩ := convert_eq_ok hc
    rw [result_convert_of_within h (h.agreeOn (contains_of_forms hf)) hne, hc]
    rfl
  · have hagree := h.agreeOn he
    have hforms : (Session.mk A n).forms e = .ok c.toForms :=
      (forms_congr hagree).symm.trans (convert_eq_ok hc).2.1
    cases hempty : A.isEmpty with
    | true =>
      obtain ⟨x, hx⟩ := exists_forms_error (s := ⟨A, n⟩) (e := e) hempty
      rw [hforms] at hx
      cases hx
    | false =>
      obtain ⟨c', hc'⟩ := (convert_accepts_iff (s := ⟨A, n⟩) hempty).2 ⟨_, hforms⟩
      rw [result_convert_of_within h hagree hempty, hc'] at hc
      obtain rfl := Except.ok.inj hc
      rw [hc']
      -- listing other symbols twice comes to listing those of `A`, which are listed already
      have hlisted : c'.dfa.alphabet = A.toList := alphabet_convert hc'
      simp [Conversion.withAlphabet, Dfa.withAlphabet, ← hlisted]
  · have hA' := ofText_congr h hA
    refine ⟨hA', fun e => ?_⟩
    simp only [RegexAutomata.convert, ofText, hA, hA']

/-- One symbol that is not used, and the same two symbols declared in two ways. -/
theorem symbols_immaterial_instance :
    ∃ c, ((Session.mk (.extend .empty ['a', 'b']) 2).convert ['a', '*', 'b']).result = .ok c ∧
      ((Session.mk (.extend .empty ['a', 'b', 'c']) 2).convert ['a', '*', 'b']).result =
        .ok (c.withAlphabet (.extend .empty ['a', 'b', 'c'])) ∧
      RegexAutomata.convert ['b', ' ', 'a', 'b'] ['a', '*', 'b'] =
        RegexAutomata.convert ['a', ',', 'b'] ['a', '*', 'b'] := by
  have hwithin : (Alphabet.extend .empty ['a', 'b']).Within (.extend .empty ['a', 'b', 'c']) := by
    intro c hc
    rw [contains_extend] at hc ⊢
    exact hc.imp_right fun hc => ⟨List.mem_append_left ['c'] hc.1, hc.2⟩
  have hsame : ∀ x, isSeparator x = false → (x ∈ ['a', ',', 'b'] ↔ x ∈ ['b', ' ', 'a', 'b']) := by
    intro x hx
    have hcomma : x ≠ ',' := by
      rintro rfl
      cases hx
    have hblank : x ≠ ' ' := by
      rintro rfl
      cases hx
    simp only [List.mem_cons, hcomma, hblank, List.not_mem_nil]
    tauto
  obtain ⟨c, hc⟩ : ∃ c, ((Session.mk (.extend .empty ['a', 'b']) 2).convert ['a', '*', 'b']).result =
      .ok c := ⟨_, rfl⟩
  refine ⟨c, hc, (symbols_immaterial.1 _ _ 2 _ hwithin).1 c hc, ?_⟩
  exact (symbols_immaterial.2 _ _ hsame _ rfl).2 _

end Session
end RegexAutomata
