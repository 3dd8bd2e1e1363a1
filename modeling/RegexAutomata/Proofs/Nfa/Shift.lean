import RegexAutomata.Proofs.Nfa.Assembly
import RegexAutomata.Proofs.Nfa.Renaming

/-! Building does not look at ids either. The combinators commute with every renaming that keeps
ids apart and next to each other, and building behind `k` more ids comes to all ids plus `k`. -/
namespace RegexAutomata

namespace Nfa
variable {f : Nat → Nat} {m m' l r : Nfa} {n : Nat}

section injective
variable (hf : Function.Injective f)
include hf

theorem state?_rename_apply (m : Nfa) (i : Nat) :
    (m.rename f).state? (f i) = (m.state? i).map (State.rename f) :=
  state?_rename fun _ _ h => hf h

/-- What looks like a renamed automaton at the new ids and has no state elsewhere is that one. -/
theorem rename_eq (hstate : ∀ i, m'.state? (f i) = (m.state? i).map (State.rename f))
    (hrange : ∀ j, m'.Has j → ∃ i, f i = j) (hentry : f m.entry = m'.entry)
    (hexit : f m.exit = m'.exit) : m.rename f = m' := by
  have hstates : (m.rename f).states = m'.states := by
    refine Keyed.ext_find? fun j => ?_
    by_cases hj : ∃ i, f i = j
    · obtain ⟨i, rfl⟩ := hj
      exact (state?_rename_apply hf m i).trans (hstate i).symm
    · have hnone : (m.rename f).state? j = none :=
        Option.not_isSome_iff_eq_none.1 fun h => hj (exists_of_has_rename h)
      have hnone' : m'.state? j = none := Option.not_isSome_iff_eq_none.1 fun h => hj (hrange j h)
      exact hnone.trans hnone'.symm
  obtain ⟨states, entry, exit⟩ := m'
  exact (Nfa.mk.injEq ..).mpr ⟨hstates, hentry, hexit⟩

theorem rename_ends (hn : f (n + 1) = f n + 1) : (ends n).rename f = ends (f n) := by
  refine rename_eq hf (fun i => ?_) (fun j hj => ?_) rfl hn
  · rw [state?_ends, state?_ends, ← hn]
    by_cases h : n = i
    · simp [h, State.rename]
    · by_cases h' : n + 1 = i <;> simp [h, h', hf.eq_iff, State.rename]
  · obtain rfl | rfl := has_ends.1 hj
    · exact ⟨n, rfl⟩
    · exact ⟨n + 1, hn⟩

theorem rename_link (m : Nfa) (a : Nat) (lab : Label) (b : Nat) :
    (m.link a lab b).rename f = (m.rename f).link (f a) lab (f b) := by
  refine rename_eq hf (fun i => ?_) (fun j hj => ?_) rfl rfl
  · rw [state?_link, state?_link, state?_rename_apply hf]
    by_cases h : i = a
    · cases m.state? i <;> simp [h, State.rename, Edge.rename]
    · simp [h, hf.eq_iff]
  · exact exists_of_has_rename (has_link.1 hj)

theorem rename_interior (m : Nfa) : m.interior.rename f = (m.rename f).interior := by
  refine rename_eq hf (fun i => ?_) (fun j hj => ?_) rfl rfl
  · rw [state?_interior, state?_interior, state?_rename_apply hf]
    cases m.state? i with
    | none => rfl
    | some s => simp [State.rename, rename, bne, hf.beq_eq]
  · exact exists_of_has_rename (has_interior.1 hj)

theorem rename_absorb (l r : Nfa) : (l.absorb r).rename f = (l.rename f).absorb (r.rename f) := by
  refine rename_eq hf (fun i => ?_) (fun j hj => ?_) rfl rfl
  · rw [state?_absorb, state?_absorb, state?_rename_apply hf, state?_rename_apply hf]
    cases r.state? i <;> rfl
  · obtain hj | hj := has_absorb.1 hj
    · exact exists_of_has_rename hj
    · exact exists_of_has_rename hj

theorem entryEdges_rename (m : Nfa) :
    (m.rename f).entryEdges = m.entryEdges.map (Edge.rename f) := by
  rw [entryEdges, entryEdges, entry_rename, state?_rename_apply hf]
  cases m.state? m.entry <;> rfl

theorem rename_joint (l r : Nfa) : (l.joint r).rename f = (l.rename f).joint (r.rename f) := by
  refine rename_eq hf (fun i => ?_) (fun j hj => ?_) rfl rfl
  · rw [state?_joint, state?_joint, state?_rename_apply hf, entryEdges_rename hf, exit_rename]
    by_cases h : i = l.exit
    · cases l.state? i <;> simp [h, State.rename, State.extended]
    · simp [h, hf.eq_iff]
  · exact exists_of_has_rename (has_joint.1 hj)

theorem rename_tail (r : Nfa) : r.tail.rename f = (r.rename f).tail := by
  refine rename_eq hf (fun i => ?_) (fun j hj => ?_) rfl rfl
  · rw [state?_tail, state?_tail, state?_rename_apply hf, entry_rename]
    by_cases h : i = r.entry
    · simp [h]
    · simp [h, hf.eq_iff]
  · exact exists_of_has_rename (has_tail.1 hj).1

theorem rename_symbol (hn : f (n + 1) = f n + 1) (c : Char) :
    (symbol n c).rename f = symbol (f n) c := by
  rw [symbol, symbol, rename_link hf, rename_ends hf hn, hn]

theorem rename_star (hn : f (n + 1) = f n + 1) (m : Nfa) :
    (m.star n).rename f = (m.rename f).star (f n) := by
  rw [star_eq, star_eq, rename_link hf, rename_link hf, rename_link hf, rename_link hf,
    rename_absorb hf, rename_ends hf hn, rename_interior hf, hn]
  rfl

theorem rename_union (hn : f (n + 1) = f n + 1) (l r : Nfa) :
    (l.union n r).rename f = (l.rename f).union (f n) (r.rename f) := by
  rw [union_eq, union_eq, rename_link hf, rename_link hf, rename_link hf, rename_link hf,
    rename_absorb hf, rename_absorb hf, rename_ends hf hn, rename_interior hf, rename_interior hf,
    hn]
  rfl

theorem rename_concat (l r : Nfa) : (l.concat r).rename f = (l.rename f).concat (r.rename f) := by
  rw [concat_eq, concat_eq, ← rename_joint hf, ← rename_tail hf, ← rename_absorb hf]
  rfl

end injective

end Nfa

namespace Assembly
variable {A : Alphabet} {k position : Nat} {w : Assembly} {t : List Char}

def shift (k : Nat) (w : Assembly) : Assembly :=
  ⟨w.issued + k, w.stack.map (Nfa.rename (· + k))⟩

theorem length_shift (w : Assembly) : (w.shift k).stack.length = w.stack.length :=
  List.length_map ..

theorem add_injective (k : Nat) : Function.Injective (· + k) := fun _ _ => Nat.add_right_cancel

theorem operate?_shift (w : Assembly) (o : Operator) :
    (w.shift k).operate? o = (w.operate? o).map (shift k) := by
  have hf := add_injective k
  have hn : w.issued + 1 + k = w.issued + k + 1 := Nat.add_right_comm ..
  have hn' : w.issued + 2 + k = w.issued + k + 2 := Nat.add_right_comm ..
  obtain ⟨n, stack⟩ := w
  cases o with
  | star =>
    cases stack with
    | nil => rfl
    | cons m rest => simp [shift, operate?, Nfa.rename_star hf hn, hn']
  | union =>
    cases stack with
    | nil => rfl
    | cons r stack =>
      cases stack with
      | nil => rfl
      | cons l rest => simp [shift, operate?, Nfa.rename_union hf hn, hn']
  | concat =>
    cases stack with
    | nil => rfl
    | cons r stack =>
      cases stack with
      | nil => rfl
      | cons l rest => simp [shift, operate?, Nfa.rename_concat hf]

theorem pushSymbol_shift (w : Assembly) (c : Char) :
    (w.shift k).pushSymbol c = (w.pushSymbol c).shift k := by
  have hsymbol := Nfa.rename_symbol (add_injective k) (Nat.add_right_comm w.issued 1 k) c
  rw [shift, shift, pushSymbol, pushSymbol, List.map_cons, hsymbol, Nat.add_right_comm]

theorem step_shift (w : Assembly) (c : Char) :
    (w.shift k).step A position c = (w.step A position c).map (shift k) := by
  cases hc : role c with
  | operator o =>
    rw [step_operator hc, step_operator hc, operate?_shift]
    cases w.operate? o <;> rfl
  | operand | opening | closing =>
    simp only [step, hc, pushSymbol_shift]
    by_cases hA : A.contains c = true <;> simp [hA, Except.map]

theorem run_shift (w : Assembly) (position : Nat) (t : List Char) :
    (w.shift k).run A position t =
      { w.run A position t with last := (w.run A position t).last.shift k } := by
  induction t generalizing w position with
  | nil => rfl
  | cons c t ih =>
    rw [run, run, step_shift]
    cases w.step A position c with
    | error f => rfl
    | ok w' =>
      simp only [Except.map, ih, length_shift]

theorem result_shift (w : Assembly) :
    (w.shift k).result = w.result.map (Nfa.rename (· + k)) := by
  obtain ⟨n, stack⟩ := w
  cases stack with
  | nil => rfl
  | cons m stack => cases stack <;> simp [shift, result, Except.map]

end Assembly

/-- With `k` more ids issued before, all ids are greater by `k`, and faults are the same. -/
theorem Nfa.result_ofPostfix_add (A : Alphabet) (n k : Nat) (t : List Char) :
    (ofPostfix A (n + k) t).result = (ofPostfix A n t).result.map (Nfa.rename (· + k)) := by
  have hstart : Assembly.mk (n + k) [] = (Assembly.mk n []).shift k := rfl
  rw [ofPostfix, ofPostfix, hstart, Assembly.run_shift]
  cases ((Assembly.mk n []).run A 0 t).fault with
  | some f => rfl
  | none =>
    simp only [Assembly.result_shift]
    cases ((Assembly.mk n []).run A 0 t).last.result <;> rfl

end RegexAutomata
