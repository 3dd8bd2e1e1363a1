import RegexAutomata.Postfix.Basic
import RegexAutomata.Proofs.Expression.Draft

/-! The postfix form of the text of a draft is the post-order of the draft. When the text has been
read, part of the post-order is written and the rest waits on the stack. -/
namespace RegexAutomata
open Expression

/-- An operator of at least this strength does not end a text of the rank. -/
def Expression.Rank.strength : Rank → Nat
  | .sum => 1
  | .product => 2
  | .factor => 3
  | .atom => 4

namespace Postfix
variable {c : Char} {o : Operator} {p s t : List Char}

theorem arrange_operand (hc : role c = .operand) : arrange s (c :: t) = c :: arrange s t := by
  simp only [arrange, hc]

theorem arrange_opening : arrange s ('(' :: t) = arrange ('(' :: s) t := rfl

theorem arrange_closing (hp : ∀ c ∈ p, c ≠ '(') :
    arrange (p ++ '(' :: s) (')' :: t) = p ++ arrange s t := by
  have hp' : ∀ c ∈ p, (c != '(') = true := fun c hc => bne_iff_ne.2 (hp c hc)
  have hc : role ')' = .closing := rfl
  simp only [arrange, hc]
  rw [List.takeWhile_append_of_pos hp', List.dropWhile_append_of_pos hp']
  simp

/-- An operator sends out what binds at least as tightly, down to what binds less. -/
theorem arrange_operator (hp : ∀ c ∈ p, o.strength ≤ (role c).strength)
    (hs : ∀ c ∈ s.head?, (role c).strength < o.strength) :
    arrange (p ++ s) (o.char :: t) = p ++ arrange (o.char :: s) t := by
  have hp' : ∀ c ∈ p, decide (o.strength ≤ (role c).strength) = true :=
    fun c hc => decide_eq_true (hp c hc)
  simp only [arrange, role_char]
  rw [List.takeWhile_append_of_pos hp', List.dropWhile_append_of_pos hp']
  cases s with
  | nil => simp
  | cons top s =>
    have hlt := hs top rfl
    simp [Nat.not_le.2 hlt]

/-- Nothing is written that was not read. -/
theorem mem_arrange : c ∈ arrange s t → c ∈ s ∨ c ∈ t := by
  induction t generalizing s with
  | nil => exact .inl
  | cons c' t ih =>
    have hdrop (f : Char → Bool) : ∀ c ∈ s.dropWhile f, c ∈ s :=
      fun c hc => (List.dropWhile_suffix f).subset hc
    have htake (f : Char → Bool) : ∀ c ∈ s.takeWhile f, c ∈ s :=
      fun c hc => (List.takeWhile_prefix f).subset hc
    intro hc
    rw [List.mem_cons]
    cases hr : role c' with
    | opening =>
      simp only [arrange, hr] at hc
      obtain hc | hc := ih hc
      · exact (List.mem_cons.1 hc).elim (fun h => .inr (.inl h)) .inl
      · exact .inr (.inr hc)
    | closing =>
      simp only [arrange, hr] at hc
      obtain hc | hc := List.mem_append.1 hc
      · exact .inl (htake _ c hc)
      · exact (ih hc).imp (fun hc => hdrop _ c (List.mem_of_mem_tail hc)) .inr
    | operator o =>
      simp only [arrange, hr] at hc
      obtain hc | hc := List.mem_append.1 hc
      · exact .inl (htake _ c hc)
      · obtain hc | hc := ih hc
        · exact (List.mem_cons.1 hc).elim (fun h => .inr (.inl h)) fun hc => .inl (hdrop _ c hc)
        · exact .inr (.inr hc)
    | operand =>
      simp only [arrange, hr] at hc
      obtain hc | hc := List.mem_cons.1 hc
      · exact .inr (.inl hc)
      · exact (ih hc).imp id .inr

/-- No operand that was read is lost. -/
theorem mem_arrange_of_operand (hc : role c = .operand) (h : c ∈ t) : c ∈ arrange s t := by
  induction t generalizing s with
  | nil => cases h
  | cons c' t ih =>
    obtain rfl | h := List.mem_cons.1 h
    · simp only [arrange, hc]
      exact List.mem_cons_self
    · cases hr : role c' with
      | opening =>
        simp only [arrange, hr]
        exact ih h
      | closing | operator o =>
        simp only [arrange, hr]
        exact List.mem_append_right _ (ih h)
      | operand =>
        simp only [arrange, hr]
        exact List.mem_cons_of_mem c' (ih h)

theorem mem_ofExpression (h : c ∈ ofExpression t) : c ∈ t :=
  (mem_arrange h).resolve_left List.not_mem_nil

theorem mem_ofExpression_of_operand (hc : role c = .operand) (h : c ∈ t) : c ∈ ofExpression t :=
  mem_arrange_of_operand hc h

end Postfix

namespace Expression.Draft
open Postfix
variable {r : Rank} {b : Bool} {o : Operator} {s t : List Char}

/-- The operators that wait on the stack when the text has been read, innermost first. -/
def pending : {r : Rank} → {b : Bool} → Draft r b → List Char
  | _, _, .operand _ => []
  | _, _, .group _ => []
  | _, _, .blank => []
  | _, _, .plain a => a.pending
  | _, _, .star _ => ['*']
  | _, _, .beside _ _ => ['*']
  | _, _, .single f => f.pending
  | _, _, .concat _ f => f.pending ++ ['.']
  | _, _, .alone t => t.pending
  | _, _, .union _ t => t.pending ++ ['+']

def written : {r : Rank} → {b : Bool} → Draft r b → List Char
  | _, _, .operand c => [c]
  | _, _, .group e => e.postOrder
  | _, _, .blank => []
  | _, _, .plain a => a.written
  | _, _, .star f => f.postOrder
  | _, _, .beside f e => f.postOrder ++ e.postOrder
  | _, _, .single f => f.written
  | _, _, .concat t f => t.postOrder ++ f.written
  | _, _, .alone t => t.written
  | _, _, .union e t => e.postOrder ++ t.written

theorem written_append_pending : ∀ {r : Rank} {b : Bool} (d : Draft r b),
    d.written ++ d.pending = d.postOrder
  | _, _, .operand _ => rfl
  | _, _, .group e => List.append_nil _
  | _, _, .blank => rfl
  | _, _, .plain a => a.written_append_pending
  | _, _, .star _ => rfl
  | _, _, .beside _ _ => rfl
  | _, _, .single f => f.written_append_pending
  | _, _, .concat t f => by
    rw [written, pending, postOrder, ← f.written_append_pending]
    simp
  | _, _, .alone t => t.written_append_pending
  | _, _, .union e t => by
    rw [written, pending, postOrder, ← t.written_append_pending]
    simp

theorem strength_pending : ∀ {r : Rank} {b : Bool} (d : Draft r b),
    ∀ c ∈ d.pending, r.strength ≤ (role c).strength
  | _, _, .operand _, c, hc => (List.not_mem_nil hc).elim
  | _, _, .group _, c, hc => (List.not_mem_nil hc).elim
  | _, _, .blank, c, hc => (List.not_mem_nil hc).elim
  | _, _, .plain a, c, hc => Nat.le_of_succ_le (a.strength_pending c hc)
  | _, _, .star _, c, hc => by
    obtain rfl := List.mem_singleton.1 hc
    decide
  | _, _, .beside _ _, c, hc => by
    obtain rfl := List.mem_singleton.1 hc
    decide
  | _, _, .single f, c, hc => Nat.le_of_succ_le (f.strength_pending c hc)
  | _, _, .concat _ f, c, hc => by
    cases List.mem_append.1 hc with
    | inl hc => exact Nat.le_of_succ_le (f.strength_pending c hc)
    | inr hc =>
      obtain rfl := List.mem_singleton.1 hc
      decide
  | _, _, .alone t, c, hc => Nat.le_of_succ_le (t.strength_pending c hc)
  | _, _, .union _ t, c, hc => by
    cases List.mem_append.1 hc with
    | inl hc => exact Nat.le_of_succ_le (t.strength_pending c hc)
    | inr hc =>
      obtain rfl := List.mem_singleton.1 hc
      decide

/-- Reading the text on a stack whose top binds less tightly writes the one part of the post-order
and leaves the other part on the stack. -/
def Arranged (d : Draft r b) : Prop := ∀ s t, (∀ c ∈ s.head?, (role c).strength < r.strength) →
  arrange s (d.text ++ t) = d.written ++ arrange (d.pending ++ s) t

theorem Arranged.operator {d : Draft r b} (hd : d.Arranged) (ho : o.strength ≤ r.strength)
    (hs : ∀ c ∈ s.head?, (role c).strength < o.strength) :
    arrange s (d.text ++ o.char :: t) = d.postOrder ++ arrange (o.char :: s) t := by
  have hpending : ∀ c ∈ d.pending, o.strength ≤ (role c).strength :=
    fun c hc => Nat.le_trans ho (d.strength_pending c hc)
  rw [hd s _ fun c hc => Nat.lt_of_lt_of_le (hs c hc) ho, arrange_operator hpending hs,
    ← List.append_assoc, d.written_append_pending]

theorem Arranged.group {e : Draft .sum b} (he : e.Arranged) (s t : List Char) :
    arrange s ('(' :: (e.text ++ ')' :: t)) = e.postOrder ++ arrange s t := by
  have hopening : ∀ c ∈ ('(' :: s).head?, (role c).strength < Rank.sum.strength := by
    intro c hc
    obtain rfl : '(' = c := Option.some.inj hc
    decide
  have hpending : ∀ c ∈ e.pending, c ≠ '(' := by
    intro c hc hopen
    subst hopen
    exact absurd (e.strength_pending _ hc) (by decide)
  rw [arrange_opening, he _ _ hopening, arrange_closing hpending, ← List.append_assoc,
    e.written_append_pending]

theorem arranged : ∀ {r : Rank} {b : Bool} (d : Draft r b), d.Over (fun c => role c = .operand) →
    d.Arranged
  | _, _, .operand c, h, s, t, _ => arrange_operand h
  | _, _, .group e, h, s, t, _ => by
    have he := (arranged e h).group s t
    simpa [text, written, pending] using he
  | _, _, .blank, _, s, t, _ => rfl
  | _, _, .plain a, h, s, t, hs => arranged a h s t fun c hc => Nat.lt_succ_of_lt (hs c hc)
  | _, _, .star f, h, s, t, hs => by
    have hf := (arranged f h).operator (o := .star) (t := t) (Nat.le_refl 3) hs
    simpa [text, written, pending, Operator.char] using hf
  | _, _, .beside f e, h, s, t, hs => by
    have hf := (arranged f h.1).operator (o := .star) (t := '(' :: (e.text ++ ')' :: t))
      (Nat.le_refl 3) hs
    rw [(arranged e h.2).group] at hf
    simpa [text, written, pending, Operator.char] using hf
  | _, _, .single f, h, s, t, hs => arranged f h s t fun c hc => Nat.lt_succ_of_lt (hs c hc)
  | _, _, .concat u f, h, s, t, hs => by
    have hu := (arranged u h.1).operator (o := .concat) (t := f.text ++ t) (Nat.le_refl 2) hs
    rw [arranged f h.2 _ _ fun c hc => by
      obtain rfl : '.' = c := Option.some.inj hc
      decide] at hu
    simpa [text, written, pending, Operator.char] using hu
  | _, _, .alone u, h, s, t, hs => arranged u h s t fun c hc => Nat.lt_succ_of_lt (hs c hc)
  | _, _, .union e u, h, s, t, hs => by
    have he := (arranged e h.1).operator (o := .union) (t := u.text ++ t) (Nat.le_refl 1) hs
    rw [arranged u h.2 _ _ fun c hc => by
      obtain rfl : '+' = c := Option.some.inj hc
      decide] at he
    simpa [text, written, pending, Operator.char] using he

theorem ofExpression_text (d : Draft r b) (h : d.Over fun c => role c = .operand) :
    Postfix.ofExpression d.text = d.postOrder := by
  have hd := arranged d h [] [] fun c hc => by cases hc
  rw [List.append_nil, List.append_nil] at hd
  rw [Postfix.ofExpression, hd, arrange, d.written_append_pending]

end Expression.Draft

theorem Expression.Derivation.ofExpression_text {r : Rank} (d : Derivation r)
    (h : d.Over fun c => role c = .operand) : Postfix.ofExpression d.text = d.postOrder := by
  rw [← d.text_draft, d.draft.ofExpression_text (d.over_draft.2 h), d.postOrder_draft]

end RegexAutomata
