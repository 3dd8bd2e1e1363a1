import RegexAutomata.Postfix.Fault
import RegexAutomata.Proofs.Expression.Draft

/-! Counting operands along the post-order of a draft gives its height. -/
namespace RegexAutomata
namespace Postfix
variable {c : Char} {o : Operator} {k n position : Nat} {t u : List Char}

/-- Counting goes on behind the front part, unless it has stumbled there. -/
theorem depthFrom_append : depthFrom position k (t ++ u) =
    match depthFrom position k t with
    | .ok k' => depthFrom (position + t.length) k' u
    | .error f => .error f := by
  induction t generalizing position k with
  | nil => rfl
  | cons c t ih =>
    rw [List.cons_append, depthFrom, depthFrom]
    cases depthAfter position k c with
    | error f => rfl
    | ok k' =>
      simp only [List.length_cons]
      rw [ih, Nat.add_right_comm, Nat.add_assoc]

theorem toOption_depthFrom_append : (depthFrom position k (t ++ u)).toOption =
    (depthFrom position k t).toOption.bind fun k' =>
      (depthFrom (position + t.length) k' u).toOption := by
  rw [depthFrom_append]
  cases depthFrom position k t <;> rfl

theorem leftover?_eq_none : leftover? n = none ↔ n = 1 := by
  match n with
  | 0 => simp [leftover?]
  | 1 => simp [leftover?]
  | n + 2 => simp [leftover?]

theorem fault?_eq_none_iff : fault? t = none ↔ (depthFrom 0 0 t).toOption = some 1 := by
  rw [fault?]
  cases depthFrom 0 0 t with
  | error f => simp [Except.toOption]
  | ok k => simp [Except.toOption, leftover?_eq_none]

/-- Counting stumbles over brackets only. -/
theorem bracket_of_unexpectedSymbol
    (h : depthFrom position k t = .error (.unexpectedSymbol c n)) :
    c ∈ t ∧ (role c = .opening ∨ role c = .closing) := by
  induction t generalizing position k with
  | nil => cases h
  | cons c' t ih =>
    rw [depthFrom] at h
    cases hstep : depthAfter position k c' with
    | ok k' =>
      simp only [hstep] at h
      obtain ⟨hmem, hrole⟩ := ih h
      exact ⟨List.mem_cons_of_mem _ hmem, hrole⟩
    | error f =>
      simp only [hstep, Except.error.injEq] at h
      subst h
      cases hc : role c' with
      | operand => simp [depthAfter, hc] at hstep
      | operator o =>
        simp only [depthAfter, hc] at hstep
        by_cases hlt : k < o.arity <;> simp [hlt] at hstep
      | opening | closing =>
        simp only [depthAfter, hc, Except.error.injEq, Fault.unexpectedSymbol.injEq] at hstep
        obtain ⟨rfl, _⟩ := hstep
        simp [hc]

theorem bracket_of_fault? (h : fault? t = some (.unexpectedSymbol c n)) :
    c ∈ t ∧ (role c = .opening ∨ role c = .closing) := by
  rw [fault?] at h
  cases hdepth : depthFrom 0 0 t with
  | error f =>
    simp only [hdepth, Option.some.injEq] at h
    exact bracket_of_unexpectedSymbol (hdepth.trans (congrArg Except.error h))
  | ok k =>
    simp only [hdepth] at h
    cases k with
    | zero => cases h
    | succ k => cases k <;> cases h

/-- The first character of what comes down to one operand is an operand: every operator needs one. -/
theorem exists_operand (h : fault? t = none) : ∃ c ∈ t, role c = .operand := by
  cases t with
  | nil => cases h
  | cons c t =>
    refine ⟨c, List.mem_cons_self, ?_⟩
    cases hc : role c with
    | operand => rfl
    | operator o =>
      have harity : 0 < o.arity := by cases o <;> decide
      simp [fault?, depthFrom, depthAfter, hc, harity] at h
    | opening | closing => simp [fault?, depthFrom, depthAfter, hc] at h

end Postfix

namespace Expression.Draft
open Postfix
variable {r : Rank} {b : Bool} {k position : Nat}

theorem role_of_mem_joined {s t : List Char} (o : Operator)
    (hs : ∀ c ∈ s, role c = .operand ∨ ∃ o, role c = .operator o)
    (ht : ∀ c ∈ t, role c = .operand ∨ ∃ o, role c = .operator o) :
    ∀ c ∈ s ++ t ++ [o.char], role c = .operand ∨ ∃ o, role c = .operator o := by
  refine List.forall_mem_append.2 ⟨List.forall_mem_append.2 ⟨hs, ht⟩, ?_⟩
  exact List.forall_mem_singleton.2 (.inr ⟨o, role_char o⟩)

/-- Brackets are left out of the post-order. -/
theorem role_of_mem_postOrder : ∀ {r : Rank} {b : Bool} (d : Draft r b),
    d.Over (fun c => role c = .operand) → ∀ c ∈ d.postOrder,
      role c = .operand ∨ ∃ o, role c = .operator o
  | _, _, .operand _, h => List.forall_mem_singleton.2 (.inl h)
  | _, _, .group e, h => e.role_of_mem_postOrder h
  | _, _, .blank, _ => fun _ hc => (List.not_mem_nil hc).elim
  | _, _, .plain a, h => a.role_of_mem_postOrder h
  | _, _, .star f, h => by
    have hf := role_of_mem_joined (t := []) .star (f.role_of_mem_postOrder h) (by simp)
    rwa [List.append_nil] at hf
  | _, _, .beside f e, h =>
    role_of_mem_joined .star (f.role_of_mem_postOrder h.1) (e.role_of_mem_postOrder h.2)
  | _, _, .single f, h => f.role_of_mem_postOrder h
  | _, _, .concat t f, h =>
    role_of_mem_joined .concat (t.role_of_mem_postOrder h.1) (f.role_of_mem_postOrder h.2)
  | _, _, .alone t, h => t.role_of_mem_postOrder h
  | _, _, .union e t, h =>
    role_of_mem_joined .union (e.role_of_mem_postOrder h.1) (t.role_of_mem_postOrder h.2)

theorem depthFrom_operand {c : Char} (hc : role c = .operand) :
    (depthFrom position k [c]).toOption = some (k + 1) := by
  simp [depthFrom, depthAfter, hc, Except.toOption]

theorem depthFrom_operator (o : Operator) :
    (depthFrom position k [o.char]).toOption = take? o k := by
  by_cases h : k < o.arity
  · simp [depthFrom, depthAfter, take?, h, Except.toOption]
  · simp [depthFrom, depthAfter, take?, h, Except.toOption]

/-- An operator behind two drafts takes what they leave. -/
theorem depthFrom_joined {r' : Rank} {b' : Bool} {d : Draft r b} {d' : Draft r' b'} (o : Operator)
    (hd : ∀ position k, (depthFrom position k d.postOrder).toOption = d.height? k)
    (hd' : ∀ position k, (depthFrom position k d'.postOrder).toOption = d'.height? k) :
    (depthFrom position k (d.postOrder ++ d'.postOrder ++ [o.char])).toOption =
      ((d.height? k).bind d'.height?).bind (take? o) := by
  rw [toOption_depthFrom_append, toOption_depthFrom_append, hd]
  simp only [hd']
  exact Option.bind_congr fun i _ => depthFrom_operator o

theorem depthFrom_postOrder : ∀ {r : Rank} {b : Bool} (d : Draft r b),
    d.Over (fun c => role c = .operand) → ∀ position k,
      (depthFrom position k d.postOrder).toOption = d.height? k
  | _, _, .operand _, h, _, _ => depthFrom_operand h
  | _, _, .group e, h, position, k => e.depthFrom_postOrder h position k
  | _, _, .blank, _, _, _ => rfl
  | _, _, .plain a, h, position, k => a.depthFrom_postOrder h position k
  | _, _, .star f, h, position, k => by
    rw [postOrder, toOption_depthFrom_append, f.depthFrom_postOrder h position k, height?]
    exact Option.bind_congr fun i _ => depthFrom_operator .star
  | _, _, .beside f e, h, _, _ =>
    depthFrom_joined .star (f.depthFrom_postOrder h.1) (e.depthFrom_postOrder h.2)
  | _, _, .single f, h, position, k => f.depthFrom_postOrder h position k
  | _, _, .concat t f, h, _, _ =>
    depthFrom_joined .concat (t.depthFrom_postOrder h.1) (f.depthFrom_postOrder h.2)
  | _, _, .alone t, h, position, k => t.depthFrom_postOrder h position k
  | _, _, .union e t, h, _, _ =>
    depthFrom_joined .union (e.depthFrom_postOrder h.1) (t.depthFrom_postOrder h.2)

theorem fault?_postOrder_eq_none_iff (d : Draft r b) (h : d.Over fun c => role c = .operand) :
    Postfix.fault? d.postOrder = none ↔ d.height? 0 = some 1 := by
  rw [Postfix.fault?_eq_none_iff, d.depthFrom_postOrder h]

end Expression.Draft
end RegexAutomata
