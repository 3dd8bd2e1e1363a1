import RegexAutomata.Proofs.Nfa.Construction

/-! Hereditary properties: symbols have them, and fragments without common ids hand them on to what
they are joined to. Every automaton built from a postfix form has them. -/
namespace RegexAutomata
open Nfa
variable {A : Alphabet} {P : Nfa → Prop} {w w' : Assembly} {first n position i : Nat} {c : Char}
  {o : Operator} {t : List Char} {m l r : Nfa}

/-- Symbols come from the alphabet `A`, and new states get ids from `first` on. -/
structure Nfa.Hereditary (A : Alphabet) (first : Nat) (P : Nfa → Prop) : Prop where
  symbol : ∀ {n c}, first ≤ n → A.contains c = true → P (.symbol n c)
  star : ∀ {n m}, first ≤ n → Fragment m → ¬ m.Has n → ¬ m.Has (n + 1) → P m → P (m.star n)
  union : ∀ {n l r}, first ≤ n → Fragment l → Fragment r → ¬ l.Has n → ¬ l.Has (n + 1) →
    ¬ r.Has n → ¬ r.Has (n + 1) → (∀ i, l.Has i → ¬ r.Has i) → P l → P r → P (l.union n r)
  concat : ∀ {l r}, Fragment l → Fragment r → (∀ i, l.Has i → ¬ r.Has i) → P l → P r →
    P (l.concat r)

structure Nfa.Inherited (P : Nfa → Prop) : Prop where
  symbol : ∀ n c, P (.symbol n c)
  star : ∀ {n m}, Fragment m → ¬ m.Has n → ¬ m.Has (n + 1) → P m → P (m.star n)
  union : ∀ {n l r}, Fragment l → Fragment r → ¬ l.Has n → ¬ l.Has (n + 1) → ¬ r.Has n →
    ¬ r.Has (n + 1) → (∀ i, l.Has i → ¬ r.Has i) → P l → P r → P (l.union n r)
  concat : ∀ {l r}, Fragment l → Fragment r → (∀ i, l.Has i → ¬ r.Has i) → P l → P r →
    P (l.concat r)

theorem Nfa.Inherited.hereditary (hP : Inherited P) (A : Alphabet) (first : Nat) :
    Hereditary A first P where
  symbol := fun _ _ => hP.symbol _ _
  star := fun _ => hP.star
  union := fun _ => hP.union
  concat := hP.concat

namespace Construction
variable {p : List (Nfa × Language Char)}

/-- Every automaton at hand has what is handed on from its parts. -/
theorem inherited (hP : Inherited P) (h : Construction n p) : ∀ x ∈ p, P x.1 := by
  induction h with
  | start n => exact fun x hx => (List.not_mem_nil hx).elim
  | issue _ ih => exact ih
  | reorder _ hpq ih => exact fun x hx => ih x (hpq.mem_iff.2 hx)
  | symbol c _ ih => exact List.forall_mem_cons.2 ⟨hP.symbol _ c, ih⟩
  | star h ih =>
    have hgood := h.sound.good _ List.mem_cons_self
    obtain ⟨hm, hrest⟩ := List.forall_mem_cons.1 ih
    refine List.forall_mem_cons.2 ⟨?_, hrest⟩
    exact hP.star hgood.fragment (hgood.not_has (Nat.le_refl _)) (hgood.not_has (Nat.le_succ _)) hm
  | union h ih =>
    obtain ⟨hr, hl, _⟩ := List.forall_mem_cons.1 h.sound.good |>.imp_right List.forall_mem_cons.1
    obtain ⟨hPr, hPl, hrest⟩ := List.forall_mem_cons.1 ih |>.imp_right List.forall_mem_cons.1
    have hapart := (List.pairwise_cons.1 h.sound.apart).1 _ List.mem_cons_self
    refine List.forall_mem_cons.2 ⟨?_, hrest⟩
    exact hP.union hl.fragment hr.fragment (hl.not_has (Nat.le_refl _))
      (hl.not_has (Nat.le_succ _)) (hr.not_has (Nat.le_refl _)) (hr.not_has (Nat.le_succ _))
      hapart.symm hPl hPr
  | concat h ih =>
    obtain ⟨hr, hl, _⟩ := List.forall_mem_cons.1 h.sound.good |>.imp_right List.forall_mem_cons.1
    obtain ⟨hPr, hPl, hrest⟩ := List.forall_mem_cons.1 ih |>.imp_right List.forall_mem_cons.1
    have hapart := (List.pairwise_cons.1 h.sound.apart).1 _ List.mem_cons_self
    refine List.forall_mem_cons.2 ⟨?_, hrest⟩
    exact hP.concat hl.fragment hr.fragment hapart.symm hPl hPr

end Construction

namespace Assembly

structure Sound (w : Assembly) : Prop where
  fragment : ∀ m ∈ w.stack, Fragment m
  lt : ∀ m ∈ w.stack, ∀ i, m.Has i → i < w.issued
  apart : w.stack.Pairwise fun m m' => ∀ i, m.Has i → ¬ m'.Has i

theorem sound_of_construction {p : List (Nfa × Language Char)} (hp : Construction w.issued p)
    (hw : w.stack = p.map Prod.fst) : w.Sound := by
  have hgood : ∀ m ∈ w.stack, ∃ x, Construction.Good w.issued x ∧ x.1 = m := by
    intro m hm
    rw [hw] at hm
    obtain ⟨x, hx, hm⟩ := List.mem_map.1 hm
    exact ⟨x, hp.sound.good x hx, hm⟩
  refine ⟨?_, ?_, ?_⟩
  · intro m hm
    obtain ⟨x, hx, rfl⟩ := hgood m hm
    exact hx.fragment
  · intro m hm i hi
    obtain ⟨x, hx, rfl⟩ := hgood m hm
    exact hx.lt hi
  · rw [hw, List.pairwise_map]
    exact hp.sound.apart

theorem Sound.not_has (h : w.Sound) (hm : m ∈ w.stack) (hi : w.issued ≤ i) : ¬ m.Has i :=
  fun hhas => Nat.not_lt.2 hi (h.lt m hm i hhas)

/-- The next two ids are free in the top of the stack. -/
theorem Sound.operand {rest : List Nfa} (h : w.Sound) (hs : w.stack = m :: rest) :
    Fragment m ∧ ¬ m.Has w.issued ∧ ¬ m.Has (w.issued + 1) := by
  have hm : m ∈ w.stack := hs ▸ List.mem_cons_self
  exact ⟨h.fragment m hm, h.not_has hm (Nat.le_refl _), h.not_has hm (Nat.le_succ _)⟩

/-- The two automata on top can be joined, with the next two ids if ids are needed. -/
theorem Sound.operands {rest : List Nfa} (h : w.Sound) (hs : w.stack = r :: l :: rest) :
    Fragment l ∧ Fragment r ∧ ¬ l.Has w.issued ∧ ¬ l.Has (w.issued + 1) ∧ ¬ r.Has w.issued ∧
      ¬ r.Has (w.issued + 1) ∧ ∀ i, l.Has i → ¬ r.Has i := by
  obtain ⟨hr, hrn, hrn'⟩ := h.operand hs
  have hl : l ∈ w.stack := hs ▸ List.mem_cons_of_mem r List.mem_cons_self
  have hapart := h.apart
  rw [hs, List.pairwise_cons] at hapart
  exact ⟨h.fragment l hl, hr, h.not_has hl (Nat.le_refl _), h.not_has hl (Nat.le_succ _), hrn, hrn',
    fun i hi hi' => hapart.1 l List.mem_cons_self i hi' hi⟩

structure Holds (first : Nat) (P : Nfa → Prop) (w : Assembly) : Prop where
  construction : ∃ p, Construction w.issued p ∧ w.stack = p.map Prod.fst
  first_le : first ≤ w.issued
  all : ∀ m ∈ w.stack, P m

theorem Holds.sound (h : w.Holds first P) : w.Sound := by
  obtain ⟨p, hp, hw⟩ := h.construction
  exact sound_of_construction hp hw

/-- What an operator leaves on top has the property, as far as it is handed on. -/
theorem Holds.operate? (h : w.Holds first P) (hP : Hereditary A first P)
    (ho : w.operate? o = some w') : w'.Holds first P := by
  have hsound := h.sound
  have hall := h.all
  obtain ⟨p, hp, hw⟩ := h.construction
  obtain ⟨q, hq, hstack, _⟩ := hp.operate? hw ho
  have hfirst := h.first_le
  refine ⟨⟨q, hq, hstack⟩, ?_, ?_⟩
  · obtain ⟨m, rest, _, _, rfl⟩ | ⟨l, r, rest, _, _, rfl⟩ | ⟨l, r, rest, _, _, rfl⟩ :=
      operate?_eq_some ho
    · exact Nat.le_add_right_of_le hfirst
    · exact Nat.le_add_right_of_le hfirst
    · exact hfirst
  · obtain ⟨m, rest, _, hs, rfl⟩ | ⟨l, r, rest, _, hs, rfl⟩ | ⟨l, r, rest, _, hs, rfl⟩ :=
      operate?_eq_some ho
    all_goals simp only [hs, List.forall_mem_cons] at hall
    · obtain ⟨hm, hn, hn'⟩ := hsound.operand hs
      exact List.forall_mem_cons.2 ⟨hP.star hfirst hm hn hn' hall.1, hall.2⟩
    · obtain ⟨hl, hr, hln, hln', hrn, hrn', hdisjoint⟩ := hsound.operands hs
      refine List.forall_mem_cons.2 ⟨?_, hall.2.2⟩
      exact hP.union hfirst hl hr hln hln' hrn hrn' hdisjoint hall.2.1 hall.1
    · obtain ⟨hl, hr, _, _, _, _, hdisjoint⟩ := hsound.operands hs
      exact List.forall_mem_cons.2 ⟨hP.concat hl hr hdisjoint hall.2.1 hall.1, hall.2.2⟩

theorem Holds.step (h : w.Holds first P) (hP : Hereditary A first P)
    (hs : w.step A position c = .ok w') : w'.Holds first P := by
  obtain ⟨_, hA, rfl⟩ | ⟨o, _, ho⟩ := step_eq_ok hs
  · obtain ⟨p, hp, hw⟩ := h.construction
    refine ⟨⟨_, hp.symbol c, ?_⟩, ?_, ?_⟩
    · simp [pushSymbol, hw]
    · exact Nat.le_add_right_of_le h.first_le
    · exact List.forall_mem_cons.2 ⟨hP.symbol h.first_le hA, h.all⟩
  · exact h.operate? hP ho

theorem Holds.run (h : w.Holds first P) (hP : Hereditary A first P) (position : Nat)
    (t : List Char) : (w.run A position t).last.Holds first P := by
  induction t generalizing w position with
  | nil => exact h
  | cons c t ih =>
    cases hs : w.step A position c with
    | error f => simpa [Assembly.run, hs] using h
    | ok w' => simpa [Assembly.run, hs] using ih (h.step hP hs) (position + 1)

theorem holds_start (P : Nfa → Prop) (n : Nat) : (Assembly.mk n []).Holds n P :=
  ⟨⟨[], .start n, rfl⟩, Nat.le_refl n, fun _ hm => (List.not_mem_nil hm).elim⟩

end Assembly

namespace Nfa

theorem Hereditary.ofPostfix (hP : Hereditary A n P) (h : (ofPostfix A n t).result = .ok m) :
    P m := by
  obtain ⟨_, hlast⟩ := ofPostfix_eq_ok.1 h
  have hholds := (Assembly.holds_start P n).run hP 0 t
  exact hholds.all m (hlast ▸ List.mem_cons_self)

/-- All states have ids from `first` on. -/
theorem hereditary_first (A : Alphabet) (first : Nat) :
    Hereditary A first fun m => ∀ i, m.Has i → first ≤ i where
  symbol := by
    intro n c hfirst _ i hi
    have hi' := has_symbol.1 hi
    omega
  star := by
    intro n m hfirst _ _ _ hm i hi
    obtain rfl | rfl | hi := has_star.1 hi
    · exact hfirst
    · exact Nat.le_add_right_of_le hfirst
    · exact hm i hi
  union := by
    intro n l r hfirst _ _ _ _ _ _ _ hl hr i hi
    obtain rfl | rfl | hi | hi := has_union.1 hi
    · exact hfirst
    · exact Nat.le_add_right_of_le hfirst
    · exact hl i hi
    · exact hr i hi
  concat := by
    intro l r _ _ _ hl hr i hi
    obtain hi | ⟨hi, _⟩ := has_concat.1 hi
    · exact hl i hi
    · exact hr i hi

theorem le_issued_ofPostfix (A : Alphabet) (n : Nat) (t : List Char) :
    n ≤ (ofPostfix A n t).issued := by
  rw [issued_ofPostfix]
  exact ((Assembly.holds_start _ n).run (hereditary_first A n) 0 t).first_le

/-- The ids of what is built are the ones issued for it. -/
theorem has_ofPostfix (h : (ofPostfix A n t).result = .ok m) (hi : m.Has i) :
    n ≤ i ∧ i < (ofPostfix A n t).issued := by
  obtain ⟨_, hlast⟩ := ofPostfix_eq_ok.1 h
  have hholds := (Assembly.holds_start _ n).run (hereditary_first A n) 0 t
  rw [issued_ofPostfix]
  exact ⟨(hereditary_first A n).ofPostfix h i hi,
    hholds.sound.lt m (hlast ▸ List.mem_cons_self) i hi⟩

theorem mem_ids_ofPostfix (h : (ofPostfix A n t).result = .ok m) (hi : i ∈ m.ids) :
    n ≤ i ∧ i < (ofPostfix A n t).issued :=
  has_ofPostfix h ((Construction.ofPostfix h).1.has_of_mem_ids hi)

end Nfa
end RegexAutomata
