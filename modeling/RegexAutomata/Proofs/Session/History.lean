import RegexAutomata.Proofs.Nfa.Hereditary
import RegexAutomata.Proofs.Nfa.Issue
import RegexAutomata.Proofs.Session.Acceptance

/-! Sessions in the course of time. Whatever is asked of a session, ids are never taken back, the
automata of later turns have later ids, and only building issues any. -/
namespace RegexAutomata

inductive Request where
  | explicit (expression : List Char)
  | fault (explicit : List Char)
  | check (expression : List Char)
  | postfixForm (expression : List Char)
  | convert (expression : List Char)
  | assemble (postfixForm : List Char)
  | determinize (m : Nfa)

inductive Answer where
  | text (t : List Char)
  | fault (f : Option Expression.Fault)
  | form (r : Except ConversionError (List Char))
  | conversion (r : Except ConversionError Conversion)
  | nfa (r : Except ConversionError Nfa)
  | dfa (r : Except ConversionError Dfa)

structure Turn where
  before : Session
  request : Request
  after : Session
  answer : Answer

def Turn.nfa? (t : Turn) : Option Nfa :=
  match t.answer with
  | .conversion (.ok c) => some c.nfa
  | .nfa (.ok m) => some m
  | _ => none

namespace Session
variable {s : Session} {q : Request} {requests : List Request} {t : Turn} {e : List Char}
  {x : ConversionError} {m : Nfa} {i : Nat}

def turn (s : Session) (q : Request) : Turn :=
  match q with
  | .explicit e => ⟨s, q, s, .text (Expression.explicit s.alphabet e)⟩
  | .fault e => ⟨s, q, s, .fault (Expression.fault? s.alphabet e)⟩
  | .check e => ⟨s, q, s, .form (s.explicit? e)⟩
  | .postfixForm e => ⟨s, q, s, .form (s.postfixForm? e)⟩
  | .convert e => ⟨s, q, (s.convert e).session, .conversion (s.convert e).result⟩
  | .assemble p => ⟨s, q, (s.assemble p).session, .nfa (s.assemble p).result⟩
  | .determinize m => ⟨s, q, s, .dfa ((s.determinize m).map Logged.value)⟩

@[simp] theorem before_turn (s : Session) (q : Request) : (s.turn q).before = s := by
  cases q <;> rfl

@[simp] theorem request_turn (s : Session) (q : Request) : (s.turn q).request = q := by
  cases q <;> rfl

def history (s : Session) : List Request → List Turn
  | [] => []
  | q :: requests => s.turn q :: (s.turn q).after.history requests

/-- A conversion leaves the session as it is or as building from some postfix form leaves it. -/
theorem session_convert (s : Session) (e : List Char) :
    (s.convert e).session = s ∨ ∃ p, (s.convert e).session = (s.assemble p).session := by
  cases h : (s.convert e).result with
  | error x => exact .inl (convert_eq_error h).1
  | ok c =>
    obtain ⟨_, _, hbuild, _⟩ := convert_eq_ok h
    exact .inr ⟨c.postfixForm, by rw [hbuild, session_build]⟩

theorem session_turn (s : Session) (q : Request) :
    (s.turn q).after = s ∨ ∃ p, (s.turn q).after = (s.assemble p).session := by
  cases q with
  | convert e => exact session_convert s e
  | assemble p => exact .inr ⟨p, rfl⟩
  | explicit | fault | check | postfixForm | determinize => exact .inl rfl

theorem le_issued_turn (s : Session) (q : Request) : s.issued ≤ (s.turn q).after.issued := by
  obtain h | ⟨p, h⟩ := session_turn s q
  · exact Nat.le_of_eq (congrArg Session.issued h.symm)
  · rw [h]
    exact Nfa.le_issued_ofPostfix s.alphabet s.issued p

theorem alphabet_turn (s : Session) (q : Request) : (s.turn q).after.alphabet = s.alphabet := by
  obtain h | ⟨p, h⟩ := session_turn s q
  · rw [h]
  · rw [h]
    rfl

/-- What a turn has built comes from one postfix form, for which the ids of the turn were issued. -/
theorem nfa?_turn (h : (s.turn q).nfa? = some m) :
    ∃ p, (s.turn q).after = (s.assemble p).session ∧
      (Nfa.ofPostfix s.alphabet s.issued p).result = .ok m := by
  cases q with
  | convert e =>
    cases hc : (s.convert e).result with
    | error x => simp [turn, Turn.nfa?, hc] at h
    | ok c =>
      obtain ⟨_, _, hbuild, hm, _⟩ := convert_eq_ok hc
      simp only [turn, Turn.nfa?, hc, Option.some.injEq] at h
      refine ⟨c.postfixForm, ?_, h ▸ hm⟩
      simp only [turn, hbuild, session_build]
  | assemble p =>
    refine ⟨p, rfl, ?_⟩
    cases hp : (Nfa.ofPostfix s.alphabet s.issued p).result with
    | error f => simp [turn, Turn.nfa?, assemble, hp, Except.mapError] at h
    | ok m' =>
      simp only [turn, Turn.nfa?, assemble, hp, Except.mapError, Option.some.injEq] at h
      rw [h]
  | explicit | fault | check | postfixForm | determinize => cases h

theorem mem_ids_turn (h : (s.turn q).nfa? = some m) (hi : i ∈ m.ids) :
    s.issued ≤ i ∧ i < (s.turn q).after.issued := by
  obtain ⟨p, hafter, hm⟩ := nfa?_turn h
  rw [hafter]
  exact Nfa.mem_ids_ofPostfix hm hi

/-- Every turn is one request to a session of the same alphabet with no fewer ids issued. -/
theorem exists_turn_of_mem_history (h : t ∈ s.history requests) :
    ∃ (r : Session) (q : Request), t = r.turn q ∧ r.alphabet = s.alphabet ∧
      s.issued ≤ r.issued := by
  induction requests generalizing s with
  | nil => cases h
  | cons q requests ih =>
    obtain rfl | h := List.mem_cons.1 h
    · exact ⟨s, q, rfl, rfl, Nat.le_refl _⟩
    · obtain ⟨r, q', hturn, halphabet, hle⟩ := ih h
      exact ⟨r, q', hturn, halphabet.trans (alphabet_turn s q),
        Nat.le_trans (le_issued_turn s q) hle⟩

theorem mem_ids_of_mem_history (h : t ∈ s.history requests) (hm : t.nfa? = some m)
    (hi : i ∈ m.ids) : s.issued ≤ i := by
  obtain ⟨r, q, rfl, _, hle⟩ := exists_turn_of_mem_history h
  exact Nat.le_trans hle (mem_ids_turn hm hi).1

/-- What is built earlier has lower ids. -/
theorem pairwise_history (s : Session) (requests : List Request) :
    (s.history requests).Pairwise fun t t' => ∀ m ∈ t.nfa?, ∀ m' ∈ t'.nfa?,
      ∀ i ∈ m.ids, ∀ j ∈ m'.ids, i < j := by
  induction requests generalizing s with
  | nil => exact .nil
  | cons q requests ih =>
    refine .cons ?_ (ih (s.turn q).after)
    intro t ht m hm m' hm' i hi j hj
    exact Nat.lt_of_lt_of_le (mem_ids_turn hm hi).2 (mem_ids_of_mem_history ht hm' hj)

/-- A conversion never fails for want of a start state, nor over a symbol in its postfix form. -/
theorem convert_error_ne (h : (s.convert e).result = .error x) :
    x ≠ .emptyAutomaton ∧ ∀ c position, x ≠ .postfixForm (.unexpectedSymbol c position) := by
  obtain ⟨_, rfl | hforms⟩ := convert_eq_error h
  · exact ⟨nofun, nofun⟩
  · refine ⟨?_, fun c position hx => forms_ne_unexpectedSymbol s e c position (hx ▸ hforms)⟩
    obtain ⟨f, rfl, _⟩ | ⟨_, f, rfl, _⟩ := forms_eq_error hforms
    · exact nofun
    · exact nofun

theorem turn_of_conversion_error (h : (s.turn q).answer = .conversion (.error x)) :
    (s.turn q).after = s ∧ x ≠ .emptyAutomaton ∧
      ∀ c position, x ≠ .postfixForm (.unexpectedSymbol c position) := by
  cases q with
  | convert e =>
    have hresult : (s.convert e).result = .error x := Answer.conversion.inj h
    exact ⟨(convert_eq_error hresult).1, convert_error_ne hresult⟩
  | explicit | fault | check | postfixForm | assemble | determinize => cases h

/-- A form that cannot be built from has still taken the ids for what stands before the fault. -/
theorem assemble_eq_error {p : List Char} (h : (s.assemble p).result = .error x) :
    ∃ f, x = .postfixForm f ∧ (s.assemble p).session.issued =
      s.issued + 2 * (p.take (f.position?.getD p.length)).countP (Assembly.takesIds s.alphabet) := by
  rw [assemble] at h ⊢
  cases hp : (Nfa.ofPostfix s.alphabet s.issued p).result with
  | error f =>
    simp only [hp, Except.mapError, Except.error.injEq] at h
    exact ⟨f, h.symm, Nfa.issued_of_fault hp⟩
  | ok m => simp [hp, Except.mapError] at h

/-- Ids over the whole course of a session, whatever is asked in whatever order. A failed conversion
leaves the session as it was and never blames what only building could find. Building issues ids and
takes none back: a fault behind a part of the form has cost the ids for that part. And all ids of an
automaton are below those of the automata built later. -/
theorem history_ids (s : Session) (requests : List Request) :
    (∀ t ∈ s.history requests, ∀ x, t.answer = .conversion (.error x) →
      t.after = t.before ∧ x ≠ .emptyAutomaton ∧
        ∀ c position, x ≠ .postfixForm (.unexpectedSymbol c position)) ∧
    (∀ t ∈ s.history requests, ∀ p, t.request = .assemble p →
      t.before.issued ≤ t.after.issued ∧
        ∀ x, t.answer = .nfa (.error x) → ∃ f, x = .postfixForm f ∧ t.after.issued =
          t.before.issued +
            2 * (p.take (f.position?.getD p.length)).countP (Assembly.takesIds s.alphabet)) ∧
    (s.history requests).Pairwise fun t t' => ∀ m ∈ t.nfa?, ∀ m' ∈ t'.nfa?,
      ∀ i ∈ m.ids, ∀ j ∈ m'.ids, i < j := by
  refine ⟨?_, ?_, pairwise_history s requests⟩
  · intro t ht x hx
    obtain ⟨r, q, rfl, _, _⟩ := exists_turn_of_mem_history ht
    rw [before_turn]
    exact turn_of_conversion_error hx
  · intro t ht p hp
    obtain ⟨r, q, rfl, halphabet, _⟩ := exists_turn_of_mem_history ht
    rw [request_turn] at hp
    subst hp
    rw [before_turn, ← halphabet]
    refine ⟨le_issued_turn r _, fun x hx => ?_⟩
    exact assemble_eq_error (Answer.nfa.inj hx)

/-- A sum without its second operand costs the two ids of the first, a refused conversion none, and
the automata behind them lie apart. -/
theorem history_ids_refused : ∃ t₁ t₂ t₃ t₄ : Turn, ∃ m m' : Nfa,
    (start (.extend .empty ['a'])).history
      [.assemble ['a', '+'], .convert ['+'], .assemble ['a'], .convert ['a']] = [t₁, t₂, t₃, t₄] ∧
    t₁.answer = .nfa (.error (.postfixForm (.missingOperand '+' 1))) ∧
    t₁.after.issued = t₁.before.issued + 2 ∧
    (∃ x, t₂.answer = .conversion (.error x)) ∧ t₂.after = t₂.before ∧
    t₃.nfa? = some m ∧ t₄.nfa? = some m' ∧ ∀ i ∈ m.ids, ∀ j ∈ m'.ids, i < j := by
  obtain ⟨hconvert, hassemble, hapart⟩ := history_ids (start (.extend .empty ['a']))
    [.assemble ['a', '+'], .convert ['+'], .assemble ['a'], .convert ['a']]
  obtain ⟨_, hissued⟩ := hassemble _ (.head _) ['a', '+'] rfl
  obtain ⟨f, hf, hissued⟩ := hissued (.postfixForm (.missingOperand '+' 1)) rfl
  obtain ⟨hafter, _, _⟩ := hconvert _ (.tail _ (.head _)) _ rfl
  refine ⟨_, _, _, _, _, _, rfl, rfl, ?_, ⟨_, rfl⟩, hafter, rfl, rfl, ?_⟩
  · cases hf
    exact hissued
  · exact List.rel_of_pairwise_cons (hapart.tail.tail) List.mem_cons_self _ rfl _ rfl

end Session
end RegexAutomata
