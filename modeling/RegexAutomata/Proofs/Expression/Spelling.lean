import Mathlib.Data.List.Chain
import RegexAutomata.Expression.Omission
import RegexAutomata.Proofs.Alphabet

/-! Explicit forms as texts without neighbours that are joined. All spellings of an expression
have one explicit form. -/
namespace RegexAutomata.Expression
variable {A : Alphabet} {p c : Char} {t u : List Char}

theorem ne_star_of_awaiting (hp : p ∈ ['(', '+', '.']) : p ≠ '*' := by
  intro h
  subst h
  exact absurd hp (by decide)

theorem ne_opening_of_behind (hc : c ∈ [')', '+', '.', '*']) : c ≠ '(' := by
  intro h
  subst h
  exact absurd hc (by decide)

theorem contains_awaiting (A : Alphabet) (hp : p ∈ ['(', '+', '.']) : A.contains p = false := by
  simp only [List.mem_cons, List.not_mem_nil, or_false] at hp
  obtain rfl | rfl | rfl := hp <;> exact Alphabet.contains_of_isReserved (by decide)

theorem contains_behind (A : Alphabet) (hc : c ∈ [')', '+', '.', '*']) : A.contains c = false := by
  simp only [List.mem_cons, List.not_mem_nil, or_false] at hc
  obtain rfl | rfl | rfl | rfl := hc <;> exact Alphabet.contains_of_isReserved (by decide)

/-- Nothing is joined to what waits for an operand. -/
theorem joined_awaiting (A : Alphabet) (hp : p ∈ ['(', '+', '.']) (c : Char) :
    joined A p c = false := by
  have hA := contains_awaiting A hp
  have hclose : p ≠ ')' := by
    intro h
    subst h
    exact absurd hp (by decide)
  simp [joined, hA, hclose, ne_star_of_awaiting hp]

/-- Only what begins an operand is joined to anything. -/
theorem joined_behind (A : Alphabet) (hc : c ∈ [')', '+', '.', '*']) (p : Char) :
    joined A p c = false := by
  have hA := contains_behind A hc
  simp [joined, hA, ne_opening_of_behind hc]

/-- A group right behind a star is not joined to it. -/
theorem joined_star_opening (A : Alphabet) : joined A '*' '(' = false := by
  have hstar : A.contains '*' = false := Alphabet.contains_of_isReserved (by decide)
  have hopen : A.contains '(' = false := Alphabet.contains_of_isReserved (by decide)
  simp [joined, hstar, hopen]

def groupsBehindStar : List Char → Nat
  | [] => 0
  | p :: t => (if p = '*' ∧ t.head? = some '(' then 1 else 0) + groupsBehindStar t

theorem groupsBehindStar_cons (hp : p ≠ '*') :
    groupsBehindStar (p :: t) = groupsBehindStar t := by
  simp [groupsBehindStar, hp]

theorem groupsBehindStar_append (hc : c ≠ '(') :
    groupsBehindStar (t ++ c :: u) = groupsBehindStar t + groupsBehindStar (c :: u) := by
  induction t with
  | nil => simp [groupsBehindStar]
  | cons p t ih =>
    have hhead : (t ++ c :: u).head? = some '(' ↔ t.head? = some '(' := by
      cases t <;> simp [hc]
    rw [List.cons_append, groupsBehindStar, groupsBehindStar, ih]
    simp only [hhead, Nat.add_assoc]

theorem infix_iff_groupsBehindStar : ['*', '('] <:+: t ↔ groupsBehindStar t ≠ 0 := by
  induction t with
  | nil => simp [groupsBehindStar]
  | cons p t ih =>
    have hhead : ['('] <+: t ↔ t.head? = some '(' := by
      cases t <;> simp [eq_comm]
    rw [List.infix_cons_iff, List.cons_prefix_cons, ih, hhead, groupsBehindStar, eq_comm]
    split <;> simp_all

def Spaced (A : Alphabet) (t : List Char) : Prop := t.IsChain fun p c => joined A p c = false

theorem spaced_cons : Spaced A (p :: t) ↔ (∀ c ∈ t.head?, joined A p c = false) ∧ Spaced A t :=
  List.isChain_cons

def dotBefore (A : Alphabet) (p : Char) (next : Option Char) : List Char :=
  if next.any (joined A p) then ['.'] else []

theorem explicit_cons (A : Alphabet) (p : Char) (t : List Char) :
    explicit A (p :: t) = p :: (dotBefore A p t.head? ++ explicit A t) := by
  cases t with
  | nil => rfl
  | cons c t => by_cases h : joined A p c = true <;> simp [explicit, dotBefore, h]

theorem head?_explicit (A : Alphabet) (t : List Char) : (explicit A t).head? = t.head? := by
  cases t with
  | nil => rfl
  | cons p t => rw [explicit_cons, List.head?_cons, List.head?_cons]

theorem explicit_of_spaced (h : Spaced A t) : explicit A t = t := by
  induction t with
  | nil => rfl
  | cons p t ih =>
    obtain ⟨hp, ht⟩ := spaced_cons.1 h
    have hdot : t.head?.any (joined A p) = false := by
      cases hc : t.head? with
      | none => rfl
      | some c => exact hp c hc
    rw [explicit_cons, ih ht, dotBefore, hdot]
    rfl

theorem spaced_explicit (A : Alphabet) (t : List Char) : Spaced A (explicit A t) := by
  induction t with
  | nil => exact List.isChain_nil
  | cons p t ih =>
    rw [explicit_cons, dotBefore]
    by_cases h : t.head?.any (joined A p) = true
    · rw [if_pos h, List.singleton_append, spaced_cons, spaced_cons]
      refine ⟨fun c hc => ?_, fun c _ => joined_awaiting A (by decide) c, ih⟩
      obtain rfl : '.' = c := Option.some.inj hc
      exact joined_behind A (by decide) p
    · rw [if_neg h, List.nil_append, spaced_cons, head?_explicit]
      refine ⟨fun c hc => ?_, ih⟩
      rw [hc, Option.any_some] at h
      exact Bool.eq_false_iff.2 h

theorem Omits.head?_eq (h : Omits A t u) : u.head? = t.head? := by
  cases h <;> rfl

/-- A dot that is left out comes back, and the others stay. -/
theorem Omits.explicit_eq (h : Omits A t u) : explicit A u = explicit A t := by
  induction h with
  | nil => rfl
  | keep c h ih => rw [explicit_cons, explicit_cons, ih, h.head?_eq]
  | @leaveOut p c t u hj h ih =>
    have hp : dotBefore A p u.head? = ['.'] := by simp [dotBefore, h.head?_eq, hj]
    have hdot : dotBefore A p ('.' :: c :: t).head? = [] := by
      simp [dotBefore, joined_behind A (c := '.') (by decide)]
    have hdot' : dotBefore A '.' (c :: t).head? = [] := by
      simp [dotBefore, joined_awaiting A (p := '.') (by decide)]
    rw [explicit_cons, explicit_cons A p, explicit_cons A '.', ih, hp, hdot, hdot']
    rfl

/-- A text in which every dot is written is the explicit form of all its spellings. -/
theorem Omits.explicit_of_spaced (h : Omits A t u) (ht : Spaced A t) : explicit A u = t := by
  rw [h.explicit_eq, Expression.explicit_of_spaced ht]

/-- Explicit forms are their own explicit forms. -/
theorem explicit_explicit (A : Alphabet) (t : List Char) :
    explicit A (explicit A t) = explicit A t :=
  explicit_of_spaced (spaced_explicit A t)

theorem not_joiningDot_zero (A : Alphabet) (t : List Char) : ¬ JoiningDot A t 0 := by
  intro ⟨_, _, _, _, _, hi, _⟩
  cases hi

theorem joiningDot_one {d : Char} :
    JoiningDot A (p :: d :: t) 1 ↔ d = '.' ∧ ∃ c ∈ t.head?, joined A p c = true := by
  constructor
  · intro ⟨u, q, c, v, ht, hi, hj⟩
    obtain rfl : u = [] := List.length_eq_zero_iff.1 (Nat.succ.inj hi).symm
    cases ht
    exact ⟨rfl, c, rfl, hj⟩
  · intro ⟨hd, c, hc, hj⟩
    obtain ⟨v, rfl⟩ := List.head?_eq_some_iff.1 hc
    exact ⟨[], p, c, v, by rw [hd]; rfl, rfl, hj⟩

theorem JoiningDot.tail {i : Nat} (h : JoiningDot A (p :: t) (i + 2)) : JoiningDot A t (i + 1) := by
  obtain ⟨u, q, c, v, ht, hi, hj⟩ := h
  cases u with
  | nil => cases hi
  | cons d u =>
    obtain ⟨-, ht⟩ := List.cons.inj ht
    exact ⟨u, q, c, v, ht, Nat.succ.inj hi, hj⟩

/-- Any set of the dots that join operands may be left out. Two of them are never neighbours, so that
a dot left out has the same neighbours in the text that remains. -/
theorem omits_without (D : Nat → Bool) (h : ∀ i, D i = true → JoiningDot A t i) :
    Omits A t (without D t) := by
  induction hn : t.length using Nat.strong_induction_on generalizing t D with
  | _ n ih =>
    subst hn
    cases t with
    | nil => exact .nil
    | cons p t =>
      have h0 : D 0 = false := Bool.eq_false_iff.2 fun h0 => not_joiningDot_zero A _ (h 0 h0)
      rw [without, h0, if_neg Bool.false_ne_true]
      cases t with
      | nil => exact .keep p .nil
      | cons d t =>
        cases h1 : D 1 with
        | true =>
          obtain ⟨rfl, c, hc, hj⟩ := joiningDot_one.1 (h 1 h1)
          obtain ⟨v, rfl⟩ := List.head?_eq_some_iff.1 hc
          rw [without, h1, if_pos rfl]
          refine .leaveOut hj (ih _ (by simp) _ (fun i hi => ?_) rfl)
          have hdot := (h (i + 2) hi).tail
          cases i with
          | zero =>
            rw [(joiningDot_one.1 hdot).1, joined_behind A (by decide)] at hj
            cases hj
          | succ i => exact hdot.tail
        | false =>
          refine .keep p (ih _ (Nat.lt_succ_self _) _ (fun i hi => ?_) rfl)
          cases i with
          | zero =>
            rw [h1] at hi
            cases hi
          | succ i => exact (h (i + 2) hi).tail

end RegexAutomata.Expression
