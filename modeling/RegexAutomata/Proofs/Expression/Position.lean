import RegexAutomata.Proofs.Expression.Faultless

/-! The explicit form has the fault of the expression it is made from. The dots that are put in are
never at fault, and they move the characters behind them. -/
namespace RegexAutomata.Expression
variable {A : Alphabet} {c p : Char} {t : List Char} {n n' k : Nat} {before : Option Char}

def dotsBefore (A : Alphabet) : List Char → Nat → Nat
  | p :: c :: t, n + 1 => (if joined A p c then 1 else 0) + dotsBefore A (c :: t) n
  | _, _ => 0

theorem dotsBefore_zero (A : Alphabet) (t : List Char) : dotsBefore A t 0 = 0 := by
  cases t with
  | nil => rfl
  | cons p t => cases t <;> rfl

theorem dotsBefore_cons (A : Alphabet) (p : Char) (t : List Char) (n : Nat) :
    dotsBefore A (p :: t) (n + 1) = (dotBefore A p t.head?).length + dotsBefore A t n := by
  cases t with
  | nil => cases n <;> rfl
  | cons c t => by_cases h : joined A p c = true <;> simp [dotsBefore, dotBefore, h]

def Fault.move (f : Nat → Nat) : Fault → Fault
  | .invalidCharacter c p => .invalidCharacter c (f p)
  | .unmatchedClose p => .unmatchedClose (f p)
  | .operatorAfter b o p => .operatorAfter b o (f p)
  | .stackedStar p => .stackedStar (f p)
  | x => x

/-- The rules at a place look at its position only to tell whether it is the first one. -/
theorem Place.fault?_move (f : Nat → Nat) (p : Place) (h : f p.position = 0 ↔ p.position = 0) :
    Place.fault? A { p with position := f p.position } = (p.fault? A).map (Fault.move f) := by
  have hawaits : Place.awaitsOperand { p with position := f p.position } = p.awaitsOperand := rfl
  simp only [Place.fault?, hawaits, h]
  cases (role p.char).isOperator with
  | false => split_ifs <;> rfl
  | true => cases p.awaitsOperand <;> simp only <;> split_ifs <;> rfl

theorem not_awaiting_of_joined (h : joined A p c = true) : p ∉ ['(', '+', '.'] := by
  intro hp
  rw [joined_awaiting A hp] at h
  cases h

theorem isOperator_of_joined (h : joined A p c = true) : (role c).isOperator = false := by
  refine Bool.eq_false_iff.2 fun hop => ?_
  have hc : c ∈ [')', '+', '.', '*'] := by
    obtain rfl | rfl | rfl := isOperator_iff.1 hop <;> decide
  rw [joined_behind A hc] at h
  cases h

/-- What stands in front matters to operators alone. -/
theorem faultFrom?_before (h : (role c).isOperator = false) (before before' : Option Char) :
    faultFrom? A n k before (c :: t) = faultFrom? A n k before' (c :: t) := by
  simp only [faultFrom?, Place.fault?, h, Place.depthAfter]

/-- A dot that is put in is not at fault, and neither is what follows it on its account. -/
theorem faultFrom?_dotBefore (hn : n ≠ 0) :
    faultFrom? A n k (some p) (dotBefore A p t.head? ++ explicit A t) =
      faultFrom? A (n + (dotBefore A p t.head?).length) k (some p) (explicit A t) := by
  cases t with
  | nil => rfl
  | cons c t =>
    by_cases hj : joined A p c = true
    · have hdot : dotBefore A p (c :: t).head? = [Operator.concat.char] := by
        simp [dotBefore, hj, Operator.char]
      have hp := not_awaiting_of_joined hj
      have hstar : Operator.concat = .star → p ≠ '*' := fun h => by cases h
      rw [hdot, List.singleton_append, explicit_cons,
        faultFrom?_operator hp hstar hn (.inr (List.cons_ne_nil _ _))]
      exact faultFrom?_before (isOperator_of_joined hj) _ _
    · simp [dotBefore, hj]

/-- The scan of the rest of an explicit form, when `f` says where the characters have moved. -/
theorem faultFrom?_explicit (f : Nat → Nat)
    (hf : ∀ j < t.length, f (n + j) = n' + j + dotsBefore A t j) (h0 : n' = 0 ↔ n = 0) :
    faultFrom? A n' k before (explicit A t) = (faultFrom? A n k before t).map (Fault.move f) := by
  induction t generalizing n n' k before with
  | nil =>
    rw [explicit, faultFrom?, faultFrom?]
    split <;> rfl
  | cons c t ih =>
    have hn : f n = n' := by
      have h := hf 0 (Nat.zero_lt_succ _)
      rwa [dotsBefore_zero] at h
    have hlast : (dotBefore A c t.head? ++ explicit A t).isEmpty = t.isEmpty := by
      cases t with
      | nil => rfl
      | cons d t => rw [explicit_cons]; simp
    have hrest : ∀ j < t.length, f (n + 1 + j) =
        n' + 1 + (dotBefore A c t.head?).length + j + dotsBefore A t j := by
      intro j hj
      have h := hf (j + 1) (Nat.succ_lt_succ hj)
      rw [dotsBefore_cons] at h
      rw [Nat.add_assoc n 1 j, Nat.add_comm 1 j, h]
      omega
    have hplace := Place.fault?_move (A := A) f ⟨n, k, before, c, t.isEmpty⟩ (by rw [hn]; exact h0)
    rw [explicit_cons, faultFrom?, faultFrom?, Option.map_or, hlast, ← hplace, hn,
      faultFrom?_dotBefore (Nat.succ_ne_zero n'), ih hrest (by omega)]
    rfl

/-- An expression is at fault exactly if its explicit form is, and with the same fault. Its position
is moved by the dots put in front of it, and nothing else about it changes. -/
theorem fault?_explicit (A : Alphabet) (e : List Char) :
    fault? A (explicit A e) = (fault? A e).map (Fault.move fun n => n + dotsBefore A e n) := by
  cases e with
  | nil => rfl
  | cons c t =>
    have hscan : fault? A (explicit A (c :: t)) = faultFrom? A 0 0 none (explicit A (c :: t)) := by
      rw [explicit_cons]
      rfl
    rw [hscan]
    refine faultFrom?_explicit _ (fun j _ => ?_) Iff.rfl
    rw [Nat.zero_add]

end RegexAutomata.Expression
