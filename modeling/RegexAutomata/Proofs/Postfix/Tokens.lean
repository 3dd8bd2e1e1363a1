import Mathlib.Data.List.TakeWhile
import RegexAutomata.Proofs.Expression.Rules
import RegexAutomata.Proofs.Postfix.Arrangement
import RegexAutomata.Proofs.Postfix.Height

/-! What becomes of the characters of any text, well formed or not, on the way to postfix form. The
operands stay in order and the operators are as many as before. The closing parentheses are gone,
and of the opening ones those are left that no closing one goes with. -/
namespace RegexAutomata

def operands (t : List Char) : List Char := t.filter fun c => !isReserved c

/-- The positions of the opening parentheses that are open behind a text, the nearest one first. A
closing one goes with the nearest one, and with none if none is open. -/
def leftOpen (position : Nat) (opened : List Nat) : List Char → List Nat
  | [] => opened
  | c :: t =>
    if c = '(' then leftOpen (position + 1) (position :: opened) t
    else if c = ')' then leftOpen (position + 1) opened.tail t
    else leftOpen (position + 1) opened t

def unmatched (t : List Char) : List Nat := leftOpen 0 [] t

@[simp] theorem operands_append (s t : List Char) : operands (s ++ t) = operands s ++ operands t :=
  List.filter_append ..

/-- Where no closing parenthesis is stray, each of them takes one off the open ones. -/
theorem length_leftOpen {t : List Char} (position : Nat) (opened : List Nat)
    (h : ∀ u, u <+: t → u.count ')' ≤ opened.length + u.count '(') :
    (leftOpen position opened t).length + t.count ')' = opened.length + t.count '(' := by
  induction t generalizing position opened with
  | nil => rfl
  | cons c t ih =>
    have hcons (u : List Char) (hu : u <+: t) := h (c :: u) (List.cons_prefix_cons.2 ⟨rfl, hu⟩)
    simp only [List.count_cons] at hcons ⊢
    by_cases hopen : c = '('
    · subst hopen
      have hrec := ih (position + 1) (position :: opened) fun u hu => by
        have hu := hcons u hu
        simp at hu ⊢
        omega
      simp [leftOpen] at hrec ⊢
      omega
    · by_cases hclose : c = ')'
      · subst hclose
        have hpos := h [')'] (by simp)
        have hrec := ih (position + 1) opened.tail fun u hu => by
          have hu := hcons u hu
          simp at hu hpos ⊢
          omega
        simp [leftOpen] at hrec hpos ⊢
        omega
      · have hrec := ih (position + 1) opened fun u hu => by
          simpa [hopen, hclose] using hcons u hu
        simpa [leftOpen, hopen, hclose] using hrec

/-- Without a fault every parenthesis has its partner. -/
theorem Expression.Faultless.unmatched_eq_nil {A : Alphabet} {t : List Char}
    (h : Faultless A t) : unmatched t = [] := by
  have hlength : (unmatched t).length + t.count ')' = 0 + t.count '(' :=
    length_leftOpen 0 [] fun u hu => by simpa using h.nested u hu
  have hclosed := h.closed
  exact List.length_eq_zero_iff.1 (by omega)

namespace Postfix
variable {c : Char} {s t out rest : List Char} {position : Nat} {opened : List Nat}

/-- What one character can do: of the stack `s` it writes a front part, without opening parentheses,
and leaves the rest. -/
inductive Move : Char → List Char → List Char → List Char → Prop
  | operand {c : Char} (s : List Char) : role c = .operand → Move c s [c] s
  | opening (s : List Char) : Move '(' s [] ('(' :: s)
  | group {p : List Char} (s : List Char) : '(' ∉ p → Move ')' (p ++ '(' :: s) p s
  | stray {s : List Char} : '(' ∉ s → Move ')' s s []
  | operator {p : List Char} (o : Operator) (s : List Char) :
      '(' ∉ p → Move o.char (p ++ s) p (o.char :: s)

theorem exists_move (s : List Char) (c : Char) (t : List Char) :
    ∃ out rest, Move c s out rest ∧ arrange s (c :: t) = out ++ arrange rest t := by
  cases hc : role c with
  | operand => exact ⟨[c], s, .operand s hc, by simp [arrange, hc]⟩
  | opening =>
    obtain rfl := role_eq_opening_iff.1 hc
    exact ⟨[], '(' :: s, .opening s, rfl⟩
  | closing =>
    obtain rfl := role_eq_closing_iff.1 hc
    have hp : '(' ∉ s.takeWhile (· != '(') := fun h => by simpa using List.mem_takeWhile_imp h
    have hs := List.takeWhile_append_dropWhile (p := (· != '(')) (l := s)
    refine ⟨s.takeWhile (· != '('), (s.dropWhile (· != '(')).tail, ?_, by simp only [arrange, hc]⟩
    cases hdrop : s.dropWhile (· != '(') with
    | nil =>
      rw [hdrop, List.append_nil] at hs
      rw [hs] at hp ⊢
      exact .stray hp
    | cons d u =>
      obtain rfl : d = '(' := by
        have hhead := List.head?_dropWhile_not (· != '(') s
        simpa [hdrop] using hhead
      rw [hdrop] at hs
      have hmove := Move.group u hp
      rwa [hs] at hmove
  | operator o =>
    obtain rfl := role_eq_operator_iff.1 hc
    let binds := fun top => decide (o.strength ≤ (role top).strength)
    have hp : '(' ∉ s.takeWhile binds := by
      intro h
      have hbinds := List.mem_takeWhile_imp h
      cases o <;> simp [binds, Operator.strength, role, Role.strength] at hbinds
    have hmove := Move.operator o (s.dropWhile binds) hp
    rw [List.takeWhile_append_dropWhile] at hmove
    exact ⟨_, _, hmove, by simp only [arrange, hc, binds]⟩

/-- No operand waits on the stack, so that none overtakes another. -/
theorem Move.operands_eq (h : Move c s out rest) (hs : operands s = []) :
    operands rest = [] ∧ operands out = operands [c] := by
  cases h with
  | operand s hc => exact ⟨hs, rfl⟩
  | opening s => exact ⟨hs, rfl⟩
  | group s hp =>
    obtain ⟨hp, hs⟩ := List.append_eq_nil_iff.1 ((operands_append ..).symm.trans hs)
    exact ⟨hs, hp⟩
  | stray hp => exact ⟨rfl, hs⟩
  | operator o s hp =>
    obtain ⟨hp, hs⟩ := List.append_eq_nil_iff.1 ((operands_append ..).symm.trans hs)
    cases o <;> exact ⟨hs, hp⟩

theorem operands_arrange (hs : operands s = []) : operands (arrange s t) = operands t := by
  induction t generalizing s with
  | nil => exact hs
  | cons c t ih =>
    obtain ⟨out, rest, hmove, harrange⟩ := exists_move s c t
    obtain ⟨hrest, hout⟩ := hmove.operands_eq hs
    rw [harrange, operands_append, ih hrest, hout, ← operands_append, List.singleton_append]

theorem Move.count_operator (h : Move c s out rest) (o : Operator) :
    out.count o.char + rest.count o.char = s.count o.char + [c].count o.char := by
  cases h with
  | operand s hc => simp [Nat.add_comm]
  | opening s => cases o <;> simp [Operator.char]
  | group s hp => cases o <;> simp [Operator.char]
  | stray hp => cases o <;> simp [Operator.char]
  | operator o' s hp => simp [List.count_cons]; omega

theorem count_operator_arrange (s t : List Char) (o : Operator) :
    (arrange s t).count o.char = s.count o.char + t.count o.char := by
  induction t generalizing s with
  | nil => rfl
  | cons c t ih =>
    obtain ⟨out, rest, hmove, harrange⟩ := exists_move s c t
    have hcount := hmove.count_operator o
    rw [harrange, List.count_append, ih, ← List.singleton_append, List.count_append]
    omega

/-- Closing parentheses are neither written nor put on the stack. -/
theorem Move.closing_notMem (h : Move c s out rest) (hs : ')' ∉ s) : ')' ∉ out ∧ ')' ∉ rest := by
  cases h with
  | operand s hc =>
    refine ⟨fun h => ?_, hs⟩
    rw [← List.mem_singleton.1 h] at hc
    cases hc
  | opening s => simpa using hs
  | group s hp => simp_all
  | stray hp => simp_all
  | operator o s hp => cases o <;> simp_all [Operator.char]

theorem closing_notMem_arrange (hs : ')' ∉ s) : ')' ∉ arrange s t := by
  induction t generalizing s with
  | nil => exact hs
  | cons c t ih =>
    obtain ⟨out, rest, hmove, harrange⟩ := exists_move s c t
    obtain ⟨hout, hrest⟩ := hmove.closing_notMem hs
    rw [harrange, List.mem_append]
    exact fun h => h.elim hout (ih hrest)

/-- The stack has as many opening parentheses as are open, and none of them is written yet. -/
theorem Move.count_opening (h : Move c s out rest) (hs : s.count '(' = opened.length) :
    out.count '(' = 0 ∧ ∀ position t, ∃ opened', rest.count '(' = opened'.length ∧
      leftOpen position opened (c :: t) = leftOpen (position + 1) opened' t := by
  cases h with
  | operand s hc =>
    obtain ⟨hopen, hclose⟩ := ne_parenthesis_of_operand hc
    refine ⟨by simp [hopen], fun position t => ⟨opened, hs, ?_⟩⟩
    simp [leftOpen, hopen, hclose]
  | opening s => exact ⟨rfl, fun position t => ⟨position :: opened, by simp [hs], rfl⟩⟩
  | group s hp =>
    refine ⟨List.count_eq_zero.2 hp, fun position t => ⟨opened.tail, ?_, rfl⟩⟩
    simp [List.count_eq_zero.2 hp] at hs
    simp [← hs]
  | stray hp =>
    rw [List.count_eq_zero.2 hp] at hs
    refine ⟨List.count_eq_zero.2 hp, fun position t => ⟨opened.tail, ?_, rfl⟩⟩
    simp [← hs]
  | operator o s hp =>
    refine ⟨List.count_eq_zero.2 hp, fun position t => ⟨opened, ?_, ?_⟩⟩
    · rw [List.count_append, List.count_eq_zero.2 hp] at hs
      cases o <;> simpa [Operator.char] using hs
    · cases o <;> rfl

theorem count_opening_arrange (hs : s.count '(' = opened.length) (position : Nat) :
    (arrange s t).count '(' = (leftOpen position opened t).length := by
  induction t generalizing s opened position with
  | nil => exact hs
  | cons c t ih =>
    obtain ⟨out, rest, hmove, harrange⟩ := exists_move s c t
    obtain ⟨hout, hstep⟩ := hmove.count_opening hs
    obtain ⟨opened', hrest, hopen⟩ := hstep position t
    rw [harrange, List.count_append, hout, Nat.zero_add, hopen, ih hrest]

/-- Every text keeps its operands in order and its operators in number. It loses its closing
parentheses, and of the opening ones it keeps those that are left unmatched. So parentheses never get
through from an expression without a fault, and counting its operands never stumbles over one. -/
theorem tokens_ofExpression (A : Alphabet) (t : List Char) :
    operands (ofExpression t) = operands t ∧
    (∀ o : Operator, (ofExpression t).count o.char = t.count o.char) ∧
    ')' ∉ ofExpression t ∧
    (ofExpression t).count '(' = (unmatched t).length ∧
    (Expression.fault? A t = none →
      '(' ∉ ofExpression t ∧ ∀ c i, fault? (ofExpression t) ≠ some (.unexpectedSymbol c i)) := by
  have hclosing : ')' ∉ ofExpression t := closing_notMem_arrange List.not_mem_nil
  have hopening : (ofExpression t).count '(' = (unmatched t).length := count_opening_arrange rfl 0
  refine ⟨operands_arrange rfl, fun o => ?_, hclosing, hopening, fun hfault => ?_⟩
  · have hcount := count_operator_arrange [] t o
    rwa [List.count_nil, Nat.zero_add] at hcount
  · have hnone : '(' ∉ ofExpression t := by
      rw [(Expression.faultless_of_fault? hfault).unmatched_eq_nil] at hopening
      exact List.count_eq_zero.1 hopening
    refine ⟨hnone, fun c i h => ?_⟩
    obtain ⟨hmem, hc | hc⟩ := bracket_of_fault? h
    · exact hnone (role_eq_opening_iff.1 hc ▸ hmem)
    · exact hclosing (role_eq_closing_iff.1 hc ▸ hmem)

/-- Of three opening parentheses one is matched, and a stray closing one drains the stack. -/
theorem tokens_ofExpression_disorder :
    operands (ofExpression "a+)(b*.(()c".toList) = "abc".toList ∧
    (ofExpression "a+)(b*.(()c".toList).count '(' = 2 ∧
    Expression.fault? (Alphabet.empty.extend ['a', 'b']) "(a+b)*".toList = none ∧
    '(' ∉ ofExpression "(a+b)*".toList := by
  obtain ⟨hoperands, _, _, hopening, _⟩ :=
    tokens_ofExpression (Alphabet.empty.extend ['a', 'b']) "a+)(b*.(()c".toList
  obtain ⟨_, _, _, _, hfaultless⟩ :=
    tokens_ofExpression (Alphabet.empty.extend ['a', 'b']) "(a+b)*".toList
  have hfault : Expression.fault? (Alphabet.empty.extend ['a', 'b']) "(a+b)*".toList = none := by
    decide
  exact ⟨hoperands.trans (by decide), hopening.trans (by decide), hfault, (hfaultless hfault).1⟩

end Postfix
end RegexAutomata
