import RegexAutomata.Proofs.Expression.Faultless

/-! Texts with dots left out between a star and a group, where the explicit form does not put them
back. No rule on neighbours or parentheses is broken by that, and only the groups behind a star grow
in number. -/
namespace RegexAutomata.Expression
variable {A : Alphabet} {t u : List Char} {k n n' depth : Nat} {before : Option Char}

/-- `Unjoins k t u` says that `u` is `t` without `k` of the dots between a star and a group. -/
inductive Unjoins : Nat → List Char → List Char → Prop
  | nil : Unjoins 0 [] []
  | keep (c : Char) {k : Nat} {t u : List Char} : Unjoins k t u → Unjoins k (c :: t) (c :: u)
  | leaveOut {k : Nat} {t u : List Char} :
      Unjoins k t u → Unjoins (k + 1) ('*' :: '.' :: '(' :: t) ('*' :: '(' :: u)

/-- The rules care about a position only in so far as an operator cannot stand at the first one. -/
theorem Place.move {p : Place} (h : p.fault? A = none) (hn : p.position ≠ 0 → n ≠ 0) :
    Place.fault? A { p with position := n } = none := by
  rw [Place.fault?_eq_none_iff] at h ⊢
  refine ⟨h.1, h.2.1, fun ho => ?_⟩
  obtain ⟨hawaits, hstar, hposition, hlast⟩ := h.2.2 ho
  exact ⟨hawaits, hstar, hn hposition, hlast⟩

namespace Unjoins

theorem head?_eq (h : Unjoins k t u) : u.head? = t.head? := by
  cases h <;> rfl

theorem isEmpty_eq (h : Unjoins k t u) : u.isEmpty = t.isEmpty := by
  cases h <;> rfl

theorem isChain {R : Char → Char → Prop} (hs : R '*' '(') (h : Unjoins k t u) (ht : t.IsChain R) :
    u.IsChain R := by
  induction h with
  | nil => exact ht
  | keep c h ih =>
    rw [List.isChain_cons] at ht ⊢
    exact ⟨h.head?_eq ▸ ht.1, ih ht.2⟩
  | leaveOut h ih =>
    obtain ⟨_, _, ht⟩ := List.isChain_cons_cons.1 ht |>.imp_right List.isChain_cons_cons.1
    rw [List.isChain_cons] at ht
    refine List.isChain_cons_cons.2 ⟨hs, List.isChain_cons.2 ⟨h.head?_eq ▸ ht.1, ih ht.2⟩⟩

theorem spaced (h : Unjoins k t u) (ht : Spaced A t) : Spaced A u :=
  h.isChain (joined_star_opening A) ht

theorem groupsBehindStar_eq (h : Unjoins k t u) : groupsBehindStar u = groupsBehindStar t + k := by
  induction h with
  | nil => rfl
  | keep c h ih =>
    rw [groupsBehindStar, groupsBehindStar, h.head?_eq, ih, Nat.add_assoc]
  | @leaveOut k t u _ ih =>
    have hapart : groupsBehindStar ('*' :: '.' :: '(' :: t) = groupsBehindStar t := by
      simp [groupsBehindStar]
    have hbeside : groupsBehindStar ('*' :: '(' :: u) = groupsBehindStar u + 1 := by
      simp [groupsBehindStar, Nat.add_comm]
    rw [hapart, hbeside, ih, Nat.add_assoc]

theorem countP_eq (h : Unjoins k t u) {p : Char → Bool} (hp : p '.' = false) :
    u.countP p = t.countP p := by
  induction h with
  | nil => rfl
  | keep c _ ih => rw [List.countP_cons, List.countP_cons, ih]
  | leaveOut _ ih => simp [List.countP_cons, hp, ih]

theorem countP_add (h : Unjoins k t u) {p : Char → Bool} (hp : p '.' = true) :
    u.countP p + k = t.countP p := by
  induction h with
  | nil => rfl
  | keep c _ ih =>
    rw [List.countP_cons, List.countP_cons, ← ih]
    omega
  | leaveOut _ ih =>
    simp only [List.countP_cons, hp, if_true, ← ih]
    omega

/-- No rule is broken where a dot is gone. Places move to the left, but none of them to the first. -/
theorem faultFrom?_eq_none (h : Unjoins k t u) (hn : n ≠ 0 → n' ≠ 0)
    (ht : faultFrom? A n depth before t = none) : faultFrom? A n' depth before u = none := by
  induction h generalizing n n' depth before with
  | nil => exact ht
  | keep c h ih =>
    obtain ⟨hplace, hrest⟩ := faultFrom?_cons_eq_none.1 ht
    rw [faultFrom?_cons_eq_none, h.isEmpty_eq]
    exact ⟨Place.move hplace hn, ih (fun _ => Nat.succ_ne_zero n') hrest⟩
  | leaveOut h ih =>
    obtain ⟨hstar, hrest⟩ := faultFrom?_cons_eq_none.1 ht
    obtain ⟨_, hgroup⟩ := faultFrom?_cons_eq_none.1 hrest
    rw [faultFrom?_opening] at hgroup
    rw [faultFrom?_cons_eq_none, faultFrom?_opening]
    exact ⟨Place.move hstar hn, ih (fun _ => Nat.succ_ne_zero (n' + 1)) hgroup⟩

theorem fault?_eq_none (h : Unjoins k t u) (ht : fault? A t = none) : fault? A u = none := by
  cases t with
  | nil => cases ht
  | cons c t =>
    have hu : faultFrom? A 0 0 none u = none := h.faultFrom?_eq_none id ht
    cases u with
    | nil => cases h.isEmpty_eq
    | cons c u => exact hu

end Unjoins

/-- Operands are joined two by two, but for those that are missing and the groups behind a star. -/
theorem Draft.countP_text : ∀ {r : Rank} {b : Bool} (d : Draft r b),
    d.Over (fun c => role c = .operand) →
      d.text.countP (fun c => role c == .operand) + d.gaps =
        d.text.countP (fun c => c == '+' || c == '.') + 1 + d.besides
  | _, _, .operand c, h => by
    have hplus : c ≠ '+' := by
      rintro rfl
      cases h
    have hdot : c ≠ '.' := by
      rintro rfl
      cases h
    simp [text, show role c = .operand from h, hplus, hdot, gaps, besides]
  | _, _, .group e, h => by
    have he := e.countP_text h
    simpa [text, role, List.countP_append, gaps, besides] using he
  | _, _, .blank, _ => rfl
  | _, _, .plain a, h => a.countP_text h
  | _, _, .star f, h => by
    have hf := f.countP_text h
    simpa [text, role, List.countP_append, gaps, besides] using hf
  | _, _, .beside f e, h => by
    have hf := f.countP_text h.1
    have he := e.countP_text h.2
    simp [text, role, List.countP_append, gaps, besides] at hf he ⊢
    omega
  | _, _, .single f, h => f.countP_text h
  | _, _, .concat t f, h => by
    have ht := t.countP_text h.1
    have hf := f.countP_text h.2
    simp [text, role, List.countP_append, gaps, besides] at ht hf ⊢
    omega
  | _, _, .alone t, h => t.countP_text h
  | _, _, .union e t, h => by
    have he := e.countP_text h.1
    have ht := t.countP_text h.2
    simp [text, role, List.countP_append, gaps, besides] at he ht ⊢
    omega

end RegexAutomata.Expression
