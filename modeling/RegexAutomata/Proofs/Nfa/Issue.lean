import RegexAutomata.Proofs.Nfa.Assembly

/-! How many ids are issued. Every symbol, star and union that is processed takes a pair of ids, and
a fault takes back none and adds none. -/
namespace RegexAutomata

def Postfix.Fault.position? : Fault → Option Nat
  | .missingOperand _ position => some position
  | .unexpectedSymbol _ position => some position
  | .noOperands | .unjoinedOperands _ => none

namespace Assembly
variable {A : Alphabet} {w w' : Assembly} {position : Nat} {c : Char} {t : List Char}
  {f : Postfix.Fault}

def takesIds (A : Alphabet) (c : Char) : Bool := A.contains c || c == '*' || c == '+'

theorem issued_step (h : w.step A position c = .ok w') :
    w'.issued = w.issued + 2 * if takesIds A c then 1 else 0 := by
  obtain ⟨_, hA, rfl⟩ | ⟨o, hc, ho⟩ := step_eq_ok h
  · simp [takesIds, hA, pushSymbol]
  · obtain rfl := role_eq_operator_iff.1 hc
    obtain ⟨m, rest, rfl, _, rfl⟩ | ⟨l, r, rest, rfl, _, rfl⟩ | ⟨l, r, rest, rfl, _, rfl⟩ :=
      operate?_eq_some ho
    · simp [takesIds, Operator.char]
    · simp [takesIds, Operator.char]
    · have hdot : A.contains '.' = false := Alphabet.contains_of_isReserved (by decide)
      simp [takesIds, Operator.char, hdot]

theorem position?_of_step (h : w.step A position c = .error f) : f.position? = some position := by
  cases hc : role c with
  | operator o =>
    rw [step_operator hc] at h
    cases ho : w.operate? o with
    | none =>
      simp only [ho, Except.error.injEq] at h
      rw [← h]
      rfl
    | some w' => simp [ho] at h
  | operand | opening | closing =>
    simp only [step, hc] at h
    by_cases hA : A.contains c = true
    · simp [hA] at h
    · simp only [hA, Bool.false_eq_true, if_false, Except.error.injEq] at h
      rw [← h]
      rfl

theorem issued_run (h : (w.run A position t).fault = none) :
    (w.run A position t).last.issued = w.issued + 2 * t.countP (takesIds A) := by
  induction t generalizing w position with
  | nil => rfl
  | cons c t ih =>
    cases hs : w.step A position c with
    | error f => simp [run, hs] at h
    | ok w' =>
      simp only [run, hs] at h ⊢
      rw [ih h, issued_step hs, List.countP_cons]
      omega

/-- A fault in a run names its position, and the ids issued are those for what stands in front. -/
theorem issued_run_of_fault (h : (w.run A position t).fault = some f) :
    ∃ k, f.position? = some (position + k) ∧
      (w.run A position t).last.issued = w.issued + 2 * (t.take k).countP (takesIds A) := by
  induction t generalizing w position with
  | nil => simp [run] at h
  | cons c t ih =>
    cases hs : w.step A position c with
    | error f' =>
      simp only [run, hs, Option.some.injEq] at h ⊢
      subst h
      exact ⟨0, position?_of_step hs, rfl⟩
    | ok w' =>
      simp only [run, hs] at h ⊢
      obtain ⟨k, hk, hissued⟩ := ih h
      refine ⟨k + 1, ?_, ?_⟩
      · rw [hk, Nat.add_right_comm, Nat.add_assoc]
      · rw [hissued, issued_step hs, List.take_succ_cons, List.countP_cons]
        omega

theorem position?_of_result (h : w.result = .error f) : f.position? = none := by
  obtain ⟨n, stack⟩ := w
  cases stack with
  | nil =>
    cases h
    rfl
  | cons m stack =>
    cases stack <;> cases h
    rfl

end Assembly

theorem Nfa.issued_of_fault {A : Alphabet} {n : Nat} {t : List Char} {f : Postfix.Fault}
    (h : (ofPostfix A n t).result = .error f) : (ofPostfix A n t).issued =
      n + 2 * (t.take (f.position?.getD t.length)).countP (Assembly.takesIds A) := by
  rw [issued_ofPostfix]
  obtain hfault | ⟨hnone, hlast⟩ := ofPostfix_eq_error.1 h
  · obtain ⟨k, hk, hissued⟩ := Assembly.issued_run_of_fault hfault
    rw [hk, hissued, Nat.zero_add]
    rfl
  · rw [Assembly.position?_of_result hlast, Assembly.issued_run hnone, Option.getD_none,
      List.take_length]

end RegexAutomata
