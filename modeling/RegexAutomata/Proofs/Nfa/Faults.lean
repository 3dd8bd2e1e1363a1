import RegexAutomata.Proofs.Nfa.Assembly
import RegexAutomata.Proofs.Postfix.Height

/-! The faults of building against the faults of counting. Over allowed characters they are the
same. A foreign character stops building where it stands, unless an operator in front of it has
found too few operands. -/
namespace RegexAutomata

namespace Postfix
variable {c op : Char} {i k position : Nat} {f : Fault} {t : List Char}

/-- The first operator of `t` that finds too few operands is `op` at position `i`. -/
def Starves (t : List Char) (op : Char) (i : Nat) : Prop :=
  ∃ u v o d, t = u ++ op :: v ∧ u.length = i ∧ role op = .operator o ∧
    depthFrom 0 0 u = .ok d ∧ d < o.arity

theorem Starves.depthFrom_eq (h : Starves t op i) :
    depthFrom 0 0 t = .error (.missingOperand op i) := by
  obtain ⟨u, v, o, d, rfl, rfl, ho, hu, hd⟩ := h
  simp [depthFrom_append, hu, depthFrom, depthAfter, ho, hd]

/-- Counting stumbles over one character, behind a front part that it gets through. -/
theorem exists_of_depthFrom_eq_error (h : depthFrom position k t = .error f) :
    ∃ u c v d, t = u ++ c :: v ∧ depthFrom position k u = .ok d ∧
      depthAfter (position + u.length) d c = .error f := by
  induction t generalizing position k with
  | nil => cases h
  | cons c t ih =>
    rw [depthFrom] at h
    cases hc : depthAfter position k c with
    | error f' =>
      simp only [hc, Except.error.injEq] at h
      exact ⟨[], c, t, k, rfl, rfl, hc.trans (congrArg Except.error h)⟩
    | ok k' =>
      simp only [hc] at h
      obtain ⟨u, c', v, d, rfl, hu, hstep⟩ := ih h
      refine ⟨c :: u, c', v, d, rfl, by simpa [depthFrom, hc] using hu, ?_⟩
      rwa [List.length_cons, Nat.add_comm u.length 1, ← Nat.add_assoc]

/-- Without brackets, what counting stumbles over is an operator that finds too few operands. -/
theorem exists_starves (ht : ∀ c ∈ t, role c ≠ .opening ∧ role c ≠ .closing)
    (h : depthFrom 0 0 t = .error f) : ∃ op i, Starves t op i := by
  obtain ⟨u, c, v, d, rfl, hu, hstep⟩ := exists_of_depthFrom_eq_error h
  obtain ⟨hopening, hclosing⟩ := ht c (List.mem_append_right u List.mem_cons_self)
  cases hc : role c with
  | operand => simp [depthAfter, hc] at hstep
  | operator o =>
    by_cases hd : d < o.arity
    · exact ⟨c, u.length, u, v, o, d, rfl, rfl, hc, hu, hd⟩
    · simp [depthAfter, hc, hd] at hstep
  | opening => exact absurd hc hopening
  | closing => exact absurd hc hclosing

end Postfix

namespace Assembly
variable {A : Alphabet} {w : Assembly} {position : Nat} {c : Char} {t : List Char}

def handles (A : Alphabet) (c : Char) : Bool := A.contains c || (role c).isOperator

theorem allows_of_handles (h : handles A c = true) : A.allows c = true := by
  rw [handles, Bool.or_eq_true] at h
  rw [Alphabet.allows, Bool.or_eq_true]
  refine h.imp_right fun ho => ?_
  rw [← Bool.not_eq_false, ← role_eq_operand_iff]
  intro hc
  simp [hc, Role.isOperator] at ho

theorem role_of_handles (h : handles A c = true) : role c ≠ .opening ∧ role c ≠ .closing := by
  rw [handles, Bool.or_eq_true] at h
  obtain hA | ho := h
  · simp [Alphabet.role_of_contains hA]
  · constructor <;> intro hc <;> simp [hc, Role.isOperator] at ho

theorem step_of_not_handles (h : handles A c = false) :
    w.step A position c = .error (.unexpectedSymbol c position) := by
  rw [handles, Bool.or_eq_false_iff] at h
  cases hc : role c with
  | operator o => simp [hc, Role.isOperator] at h
  | operand | opening | closing => simp [step, hc, h.1]

theorem handles_of_run (h : (w.run A position t).fault = none) : ∀ c ∈ t, handles A c = true := by
  induction t generalizing w position with
  | nil => exact fun c hc => (List.not_mem_nil hc).elim
  | cons c t ih =>
    cases hs : w.step A position c with
    | error f => simp [run, hs] at h
    | ok w' =>
      simp only [run, hs] at h
      refine List.forall_mem_cons.2 ⟨?_, ih h⟩
      rw [← Bool.not_eq_false]
      intro hc
      rw [step_of_not_handles hc] at hs
      cases hs

/-- Behind every part that is processed, the stack is as high as counting says. -/
theorem depthFrom_of_run (h : (w.run A position t).fault = none) :
    Postfix.depthFrom position w.stack.length t =
      .ok (w.run A position t).last.stack.length := by
  rw [depthFrom_eq w position fun c hc => allows_of_handles (handles_of_run h c hc), h]

/-- A character that no step is made of is the fault, if no operator in front of it is. -/
theorem fault_run_foreign {u : List Char} (n : Nat) (ht : ∀ x ∈ t, handles A x = true)
    (hc : handles A c = false) :
    (∀ op i, Postfix.Starves t op i →
      ((Assembly.mk n []).run A 0 (t ++ c :: u)).fault = some (.missingOperand op i)) ∧
    ((∀ op i, ¬ Postfix.Starves t op i) →
      ((Assembly.mk n []).run A 0 (t ++ c :: u)).fault = some (.unexpectedSymbol c t.length)) := by
  have hdepth := depthFrom_eq (Assembly.mk n []) 0 fun x hx => allows_of_handles (ht x hx)
  rw [fault_run_append]
  constructor
  · intro op i h
    rw [List.length_nil, h.depthFrom_eq] at hdepth
    cases hf : ((Assembly.mk n []).run A 0 t).fault with
    | none => simp [hf] at hdepth
    | some f =>
      simp only [hf, Except.error.injEq] at hdepth
      rw [← hdepth, Option.some_or]
  · intro h
    cases hf : ((Assembly.mk n []).run A 0 t).fault with
    | none => simp [run, step_of_not_handles hc]
    | some f =>
      simp only [hf] at hdepth
      obtain ⟨op, i, hi⟩ := Postfix.exists_starves (fun x hx => role_of_handles (ht x hx)) hdepth
      exact absurd hi (h op i)

end Assembly

namespace Nfa
open Assembly
variable {A : Alphabet} {n : Nat} {t : List Char} {f : Postfix.Fault}

theorem result_of_fault (h : ((Assembly.mk n []).run A 0 t).fault = some f) :
    (ofPostfix A n t).result = .error f := ofPostfix_eq_error.2 (.inl h)

/-- Over symbols and reserved characters building succeeds where counting does and reports the same
fault otherwise. In any text the first character that is neither a symbol nor an operator is
reported, unless an operator in front of it finds too few operands: then the first such operator
is. And behind every part that is processed there are as many automata as operands are counted. -/
theorem faults_ofPostfix (A : Alphabet) (n : Nat) (p : List Char) :
    ((∀ c ∈ p, A.allows c = true) →
      ((∃ m, (ofPostfix A n p).result = .ok m) ↔ Postfix.fault? p = none) ∧
      ∀ f, (ofPostfix A n p).result = .error f ↔ Postfix.fault? p = some f) ∧
    (∀ t c u, p = t ++ c :: u → (∀ x ∈ t, handles A x = true) → handles A c = false →
      (∀ op i, Postfix.Starves t op i →
        (ofPostfix A n p).result = .error (.missingOperand op i)) ∧
      ((∀ op i, ¬ Postfix.Starves t op i) →
        (ofPostfix A n p).result = .error (.unexpectedSymbol c t.length))) ∧
    ∀ k, ((Assembly.mk n []).run A 0 (p.take k)).fault = none →
      Postfix.depthFrom 0 0 (p.take k) =
        .ok ((Assembly.mk n []).run A 0 (p.take k)).last.stack.length := by
  refine ⟨fun hp => ?_, ?_, fun k h => depthFrom_of_run h⟩
  · rw [result_ofPostfix A n hp]
    cases (ofPostfix A n p).result <;> simp
  · rintro t c u rfl ht hc
    obtain ⟨hstarves, hforeign⟩ := fault_run_foreign (u := u) n ht hc
    exact ⟨fun op i h => result_of_fault (hstarves op i h), fun h => result_of_fault (hforeign h)⟩

/-- A foreign character is reported, or the operator in front of it that lacks an operand, and a
bracket like any other character that is no symbol. -/
theorem faults_ofPostfix_foreign :
    handles (Alphabet.empty.extend ['a']) 'x' = false ∧
    Postfix.Starves ['a', '+'] '+' 1 ∧
    (ofPostfix (Alphabet.empty.extend ['a']) 5 ['a', '+', 'x']).result =
      .error (.missingOperand '+' 1) ∧
    (ofPostfix (Alphabet.empty.extend ['a']) 5 ['a', 'x', '+', '+']).result =
      .error (.unexpectedSymbol 'x' 1) ∧
    (ofPostfix (Alphabet.empty.extend ['a']) 5 ['a', '(', '+']).result =
      .error (.unexpectedSymbol '(' 1) := by
  have hx : handles (Alphabet.empty.extend ['a']) 'x' = false := by decide
  have hstarves : Postfix.Starves ['a', '+'] '+' 1 :=
    ⟨['a'], [], .union, 1, rfl, rfl, rfl, rfl, by decide⟩
  have hnone : ∀ op i, ¬ Postfix.Starves ['a'] op i := by
    intro op i h
    have hcount : Postfix.depthFrom 0 0 ['a'] = .ok 1 := rfl
    rw [h.depthFrom_eq] at hcount
    cases hcount
  obtain ⟨_, hfirst, _⟩ := faults_ofPostfix (Alphabet.empty.extend ['a']) 5 ['a', '+', 'x']
  obtain ⟨_, hsecond, _⟩ := faults_ofPostfix (Alphabet.empty.extend ['a']) 5 ['a', 'x', '+', '+']
  obtain ⟨hallowed, _⟩ := faults_ofPostfix (Alphabet.empty.extend ['a']) 5 ['a', '(', '+']
  refine ⟨hx, hstarves, ?_, ?_, ?_⟩
  · exact (hfirst ['a', '+'] 'x' [] rfl (List.all_eq_true.1 rfl) hx).1 '+' 1 hstarves
  · exact (hsecond ['a'] 'x' ['+', '+'] rfl (List.all_eq_true.1 rfl) hx).2 hnone
  · exact ((hallowed (List.all_eq_true.1 rfl)).2 _).2 rfl

end Nfa
end RegexAutomata
