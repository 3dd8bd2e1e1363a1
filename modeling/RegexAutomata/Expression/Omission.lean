import RegexAutomata.Expression.Explicit

/-! The spellings of an expression in which dots are left out. A dot may be left out where the
explicit form puts it back. -/
namespace RegexAutomata.Expression

/-- `Omits A t u` says that `u` is `t` without some of the dots that join two operands. -/
inductive Omits (A : Alphabet) : List Char → List Char → Prop
  | nil : Omits A [] []
  | keep (c : Char) {t u : List Char} : Omits A t u → Omits A (c :: t) (c :: u)
  | leaveOut {p c : Char} {t u : List Char} :
      joined A p c = true → Omits A (c :: t) u → Omits A (p :: '.' :: c :: t) (p :: u)

/-- The explicit form is a spelling with more dots of what it is made from. -/
theorem omits_explicit (A : Alphabet) (t : List Char) : Omits A (explicit A t) t := by
  induction t with
  | nil => exact .nil
  | cons p t ih =>
    cases t with
    | nil => exact .keep p .nil
    | cons c t =>
      have hc : ∃ u, explicit A (c :: t) = c :: u := by
        cases t with
        | nil => exact ⟨[], rfl⟩
        | cons d t => by_cases h : joined A c d = true <;> simp [explicit, h]
      obtain ⟨u, hu⟩ := hc
      by_cases h : joined A p c = true
      · simp only [explicit, h, if_true]
        rw [hu] at ih ⊢
        exact .leaveOut h ih
      · simp only [explicit, h]
        exact .keep p ih

def without (D : Nat → Bool) : List Char → List Char
  | [] => []
  | c :: t =>
    if D 0 then without (fun i => D (i + 1)) t else c :: without (fun i => D (i + 1)) t

def JoiningDot (A : Alphabet) (t : List Char) (i : Nat) : Prop :=
  ∃ u p c v, t = u ++ p :: '.' :: c :: v ∧ i = u.length + 1 ∧ joined A p c = true

end RegexAutomata.Expression
