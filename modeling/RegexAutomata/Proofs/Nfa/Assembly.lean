import RegexAutomata.Nfa.Assembly
import RegexAutomata.Proofs.Alphabet

/-! What one step of an assembly can do, and how high its stack is. Over allowed characters the
steps go well exactly where counting operands goes well. -/
namespace RegexAutomata
namespace Assembly
variable {A : Alphabet} {w w' : Assembly} {position : Nat} {c : Char} {o : Operator} {t : List Char}

theorem step_operand (hc : role c = .operand) : w.step A position c =
    if A.contains c then .ok (w.pushSymbol c) else .error (.unexpectedSymbol c position) := by
  simp only [step, hc]

theorem step_operator (hc : role c = .operator o) : w.step A position c =
    match w.operate? o with
    | some w' => .ok w'
    | none => .error (.missingOperand c position) := by
  cases ho : w.operate? o <;> simp [step, hc, ho]

/-- A step puts a symbol on the stack or applies an operator to it. -/
theorem step_eq_ok (h : w.step A position c = .ok w') :
    (role c = .operand ∧ A.contains c = true ∧ w' = w.pushSymbol c) ∨
      ∃ o, role c = .operator o ∧ w.operate? o = some w' := by
  cases hc : role c with
  | operator o =>
    rw [step_operator hc] at h
    cases ho : w.operate? o with
    | none => simp [ho] at h
    | some w'' =>
      simp only [ho, Except.ok.injEq] at h
      exact .inr ⟨o, rfl, ho.trans (congrArg some h)⟩
  | operand =>
    rw [step_operand hc] at h
    by_cases hA : A.contains c = true
    · rw [if_pos hA, Except.ok.injEq] at h
      exact .inl ⟨rfl, hA, h.symm⟩
    · simp [hA] at h
  | opening | closing =>
    -- a bracket is no symbol of any alphabet
    have hA : ¬ A.contains c = true := fun hA => by simp [Alphabet.role_of_contains hA] at hc
    simp [step, hc, hA] at h

theorem operate?_eq_none : w.operate? o = none ↔ w.stack.length < o.arity := by
  obtain ⟨n, stack⟩ := w
  cases o with
  | star => cases stack <;> simp [operate?, Operator.arity]
  | union | concat =>
    cases stack with
    | nil => simp [operate?, Operator.arity]
    | cons r stack => cases stack <;> simp [operate?, Operator.arity]

/-- What an operator finds on top of the stack and what it leaves there. -/
theorem operate?_eq_some (h : w.operate? o = some w') :
    (∃ m rest, o = .star ∧ w.stack = m :: rest ∧
      w' = ⟨w.issued + 2, m.star w.issued :: rest⟩) ∨
    (∃ l r rest, o = .union ∧ w.stack = r :: l :: rest ∧
      w' = ⟨w.issued + 2, l.union w.issued r :: rest⟩) ∨
    (∃ l r rest, o = .concat ∧ w.stack = r :: l :: rest ∧ w' = ⟨w.issued, l.concat r :: rest⟩) := by
  obtain ⟨n, stack⟩ := w
  cases o with
  | star =>
    cases stack with
    | nil => cases h
    | cons m rest => exact .inl ⟨m, rest, rfl, rfl, (Option.some.inj h).symm⟩
  | union =>
    cases stack with
    | nil => cases h
    | cons r stack =>
      cases stack with
      | nil => cases h
      | cons l rest => exact .inr (.inl ⟨l, r, rest, rfl, rfl, (Option.some.inj h).symm⟩)
  | concat =>
    cases stack with
    | nil => cases h
    | cons r stack =>
      cases stack with
      | nil => cases h
      | cons l rest => exact .inr (.inr ⟨l, r, rest, rfl, rfl, (Option.some.inj h).symm⟩)

theorem length_operate? (h : w.operate? o = some w') :
    w'.stack.length = w.stack.length - o.arity + 1 := by
  obtain ⟨m, rest, rfl, hw, rfl⟩ | ⟨l, r, rest, rfl, hw, rfl⟩ | ⟨l, r, rest, rfl, hw, rfl⟩ :=
    operate?_eq_some h
  all_goals simp [hw, Operator.arity]

/-- A step raises and lowers the stack as counting does, and fails where counting fails. -/
theorem depthAfter_eq (hc : A.allows c = true) :
    Postfix.depthAfter position w.stack.length c =
      (w.step A position c).map fun w' => w'.stack.length := by
  cases hr : role c with
  | operator o =>
    rw [step_operator hr]
    cases ho : w.operate? o with
    | none => simp [Postfix.depthAfter, hr, operate?_eq_none.1 ho, Except.map]
    | some w' =>
      have hle : ¬ w.stack.length < o.arity := by simp [← operate?_eq_none, ho]
      simp [Postfix.depthAfter, hr, hle, length_operate? ho, Except.map]
  | operand =>
    rw [step_operand hr, if_pos (Alphabet.contains_of_allows hc hr)]
    simp [Postfix.depthAfter, hr, Except.map, pushSymbol]
  | opening | closing =>
    have hA : ¬ A.contains c = true := fun hA => by simp [Alphabet.role_of_contains hA] at hr
    simp [Postfix.depthAfter, step, hr, hA, Except.map]

theorem depthFrom_eq (w : Assembly) (position : Nat) (ht : ∀ c ∈ t, A.allows c = true) :
    Postfix.depthFrom position w.stack.length t =
      match (w.run A position t).fault with
      | some f => .error f
      | none => .ok (w.run A position t).last.stack.length := by
  induction t generalizing position w with
  | nil => rfl
  | cons c t ih =>
    obtain ⟨hc, ht⟩ := List.forall_mem_cons.1 ht
    rw [Postfix.depthFrom, depthAfter_eq hc, run]
    cases w.step A position c with
    | error f => rfl
    | ok w' => exact ih w' (position + 1) ht

/-- Behind a front part without a fault the run goes on from where it got. -/
theorem fault_run_append (w : Assembly) (position : Nat) (t u : List Char) :
    (w.run A position (t ++ u)).fault = (w.run A position t).fault.or
      ((w.run A position t).last.run A (position + t.length) u).fault := by
  induction t generalizing position w with
  | nil => rfl
  | cons c t ih =>
    rw [List.cons_append, run, run]
    cases w.step A position c with
    | error f => rfl
    | ok w' =>
      simp only [List.length_cons, ih w' (position + 1)]
      rw [Nat.add_right_comm, Nat.add_assoc]

end Assembly

namespace Nfa
variable {A : Alphabet} {n : Nat} {m : Nfa} {t : List Char} {f : Postfix.Fault}

theorem issued_ofPostfix (A : Alphabet) (n : Nat) (t : List Char) :
    (ofPostfix A n t).issued = ((Assembly.mk n []).run A 0 t).last.issued := by
  rw [ofPostfix]
  cases ((Assembly.mk n []).run A 0 t).fault with
  | some f => rfl
  | none => cases ((Assembly.mk n []).run A 0 t).last.result <;> simp

theorem ofPostfix_eq_ok : (ofPostfix A n t).result = .ok m ↔
    ((Assembly.mk n []).run A 0 t).fault = none ∧
      ((Assembly.mk n []).run A 0 t).last.stack = [m] := by
  rw [ofPostfix]
  cases ((Assembly.mk n []).run A 0 t).fault with
  | some f => simp
  | none =>
    obtain ⟨k, stack⟩ := ((Assembly.mk n []).run A 0 t).last
    cases stack with
    | nil => simp [Assembly.result]
    | cons m' stack => cases stack <;> simp [Assembly.result]

/-- Either a step fails, or the steps leave no automaton or too many of them. -/
theorem ofPostfix_eq_error : (ofPostfix A n t).result = .error f ↔
    ((Assembly.mk n []).run A 0 t).fault = some f ∨
      (((Assembly.mk n []).run A 0 t).fault = none ∧
        ((Assembly.mk n []).run A 0 t).last.result = .error f) := by
  rw [ofPostfix]
  cases ((Assembly.mk n []).run A 0 t).fault with
  | some f => simp
  | none => cases ((Assembly.mk n []).run A 0 t).last.result <;> simp

end Nfa

/-- Building reports the fault that counting finds, and succeeds where it finds none. -/
theorem Nfa.result_ofPostfix (A : Alphabet) (n : Nat) {t : List Char}
    (ht : ∀ c ∈ t, A.allows c = true) :
    Postfix.fault? t =
      match (Nfa.ofPostfix A n t).result with
      | .error f => some f
      | .ok _ => none := by
  have hd := Assembly.depthFrom_eq ⟨n, []⟩ 0 ht
  rw [List.length_nil] at hd
  rw [Postfix.fault?, hd, ofPostfix]
  generalize (Assembly.mk n []).run A 0 t = r
  obtain ⟨⟨k, stack⟩, log, fault⟩ := r
  cases fault with
  | some f => rfl
  | none =>
    cases stack with
    | nil => rfl
    | cons m stack => cases stack <;> rfl

theorem Nfa.exists_ofPostfix_eq (A : Alphabet) (n : Nat) {t : List Char}
    (ht : ∀ c ∈ t, A.allows c = true) (h : Postfix.fault? t = none) :
    ∃ m, (Nfa.ofPostfix A n t).result = .ok m := by
  have hr := result_ofPostfix A n ht
  rw [h] at hr
  cases hm : (Nfa.ofPostfix A n t).result with
  | error f => simp [hm] at hr
  | ok m => exact ⟨m, rfl⟩

end RegexAutomata
