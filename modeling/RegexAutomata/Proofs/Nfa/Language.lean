import Mathlib.Computability.Language
import RegexAutomata.Proofs.Nfa.Fragment

/-! The languages of fragments. Paths of a joined fragment are cut where they leave a part and put
together again where they enter one, so that its language is read off the languages of its parts. -/
namespace RegexAutomata

def Label.word : Label → List Char
  | .symbol c => [c]
  | .epsilon => []

namespace Nfa
variable {m l r : Nfa} {n i j k : Nat} {lab : Label} {w : List Char}

def language (m : Nfa) : Language Char := {w | m.Spells w}

theorem Path.edge (hj : j ∈ m.targetsOf lab i) (h : m.Path j w k) :
    m.Path i (lab.word ++ w) k := by
  cases lab with
  | symbol c => exact .symbol hj h
  | epsilon => exact .epsilon hj h

theorem Path.eq_or_edge (h : m.Path i w k) : (w = [] ∧ i = k) ∨
    ∃ lab j v, w = lab.word ++ v ∧ j ∈ m.targetsOf lab i ∧ m.Path j v k := by
  cases h with
  | stay => exact .inl ⟨rfl, rfl⟩
  | epsilon he hp => exact .inr ⟨_, _, _, rfl, he, hp⟩
  | symbol hs hp => exact .inr ⟨_, _, _, rfl, hs, hp⟩

/-- Induction along a path towards its end. -/
theorem Path.rec_edge {P : Nat → List Char → Prop} (h : m.Path i w k) (stay : P k [])
    (edge : ∀ {lab i j w}, j ∈ m.targetsOf lab i → m.Path j w k → P j w → P i (lab.word ++ w)) :
    P i w := by
  induction h with
  | stay => exact stay
  | epsilon he hp ih => exact edge he hp (ih stay edge)
  | symbol hs hp ih => exact edge hs hp (ih stay edge)

theorem Path.mono (h : l.Path i w k)
    (hmono : ∀ {lab i j}, j ∈ l.targetsOf lab i → j ∈ m.targetsOf lab i) : m.Path i w k :=
  h.rec_edge (P := fun i w => m.Path i w k) (.stay k) fun hj _ hp => .edge (hmono hj) hp

theorem Path.eq_of_no_edge (h : m.Path i w k) (hi : ∀ lab j, ¬ j ∈ m.targetsOf lab i) :
    w = [] ∧ i = k := by
  obtain h | ⟨lab, j, _, _, hj, _⟩ := h.eq_or_edge
  · exact h
  · exact (hi lab j hj).elim

theorem append_mem_kstar {L : Language Char} {u v : List Char} (hu : u ∈ L)
    (hv : v ∈ KStar.kstar L) : u ++ v ∈ KStar.kstar L := by
  have hle : L * KStar.kstar L ≤ KStar.kstar L := mul_kstar_le_kstar
  exact hle (Language.append_mem_mul hu hv)

namespace Fragment

theorem mem_language (hm : Fragment m) : w ∈ m.language ↔ m.Path m.entry w m.exit := by
  constructor
  · intro ⟨i, j, hi, hp, hj⟩
    rw [(start?_eq_some_iff.1 hi).1, hm.isFinal_iff.1 hj] at hp
    exact hp
  · intro hp
    exact ⟨_, _, hm.start?_eq, hp, hm.isFinal_iff.2 rfl⟩

end Fragment

theorem language_symbol (n : Nat) (c : Char) : (symbol n c).language = {[c]} := by
  refine Language.ext fun w => ?_
  rw [(fragment_symbol n c).mem_language]
  change (symbol n c).Path n w (n + 1) ↔ w = [c]
  constructor
  · intro h
    cases h with
    | epsilon he _ => cases (mem_targetsOf_symbol.1 he).2.1
    | symbol hs hp =>
      obtain ⟨_, hc, rfl⟩ := mem_targetsOf_symbol.1 hs
      obtain ⟨rfl, _⟩ := hp.eq_of_no_edge (fragment_symbol n c).not_mem_exit
      rw [Label.symbol.inj hc]
  · intro hw
    subst hw
    exact .symbol (mem_targetsOf_symbol.2 ⟨rfl, rfl, rfl⟩) (.stay _)

section star
variable (hm : Fragment m) (hn : ¬ m.Has n) (hn' : ¬ m.Has (n + 1))
include hm hn hn'

theorem path_star (h : m.Path i w k) : (m.star n).Path i w k :=
  h.mono fun hj => (mem_targetsOf_star hn hn' hm.has_exit).2 (.inl hj)

theorem epsilon_star (hi : i = n ∨ i = m.exit) (hj : j = m.entry ∨ j = n + 1)
    (h : (m.star n).Path j w k) : (m.star n).Path i w k :=
  .epsilon ((mem_targetsOf_star hn hn' hm.has_exit).2 (.inr ⟨hi, rfl, hj⟩)) h

/-- Whoever reaches the inner exit is through. -/
theorem path_star_exit (h : m.Path i w m.exit) : (m.star n).Path i w (n + 1) := by
  have hout : (m.star n).Path m.exit [] (n + 1) :=
    epsilon_star hm hn hn' (.inr rfl) (.inr rfl) (.stay _)
  simpa using (path_star hm hn hn' h).append hout

/-- A path out of the inner part first runs to its exit. What follows are more rounds. -/
theorem exists_of_path_star (h : (m.star n).Path i w (n + 1)) (hi : m.Has i) :
    ∃ u v, w = u ++ v ∧ m.Path i u m.exit ∧ v ∈ KStar.kstar m.language := by
  refine h.rec_edge (P := fun i w => m.Has i →
    ∃ u v, w = u ++ v ∧ m.Path i u m.exit ∧ v ∈ KStar.kstar m.language) ?_ ?_ hi
  · exact fun h => (hn' h).elim
  · intro lab i j w hj hp ih hi
    obtain hj | ⟨hi' | rfl, rfl, rfl | rfl⟩ := (mem_targetsOf_star hn hn' hm.has_exit).1 hj
    · obtain ⟨u, v, rfl, hu, hv⟩ := ih (hm.has_target hj)
      exact ⟨lab.word ++ u, v, by rw [List.append_assoc], .edge hj hu, hv⟩
    · exact (hn (hi' ▸ hi)).elim
    · exact (hn (hi' ▸ hi)).elim
    · obtain ⟨u, v, rfl, hu, hv⟩ := ih hm.has_entry
      exact ⟨[], u ++ v, rfl, .stay _, append_mem_kstar (hm.mem_language.2 hu) hv⟩
    · obtain ⟨rfl, _⟩ := hp.eq_of_no_edge (hm.star hn hn').not_mem_exit
      exact ⟨[], [], rfl, .stay _, Language.nil_mem_kstar _⟩

/-- The rounds of a word lead from exit to exit. -/
theorem path_star_of_mem_kstar (hw : w ∈ KStar.kstar m.language) :
    (m.star n).Path m.exit w m.exit := by
  obtain ⟨rounds, rfl, hrounds⟩ := Language.mem_kstar.1 hw
  clear hw
  induction rounds with
  | nil => exact .stay _
  | cons u rounds ih =>
    obtain ⟨hu, hrest⟩ := List.forall_mem_cons.1 hrounds
    have hround := path_star hm hn hn' (hm.mem_language.1 hu)
    exact epsilon_star hm hn hn' (.inr rfl) (.inl rfl) (hround.append (ih hrest))

theorem language_star : (m.star n).language = KStar.kstar m.language := by
  refine Language.ext fun w => ?_
  rw [(hm.star hn hn').mem_language]
  change (m.star n).Path n w (n + 1) ↔ w ∈ KStar.kstar m.language
  constructor
  · intro h
    obtain ⟨_, he⟩ | ⟨lab, j, v, rfl, hj, hp⟩ := h.eq_or_edge
    · omega
    · obtain hj | ⟨_, rfl, rfl | rfl⟩ := (mem_targetsOf_star hn hn' hm.has_exit).1 hj
      · exact (hn (Has.of_target hj)).elim
      · obtain ⟨u, v, rfl, hu, hv⟩ := exists_of_path_star hm hn hn' hp hm.has_entry
        have hrounds := append_mem_kstar (hm.mem_language.2 hu) hv
        exact hrounds
      · obtain ⟨rfl, _⟩ := hp.eq_of_no_edge (hm.star hn hn').not_mem_exit
        exact Language.nil_mem_kstar _
  · intro h
    obtain ⟨rounds, rfl, hrounds⟩ := Language.mem_kstar.1 h
    cases rounds with
    | nil => exact epsilon_star hm hn hn' (.inl rfl) (.inr rfl) (.stay _)
    | cons u rounds =>
      obtain ⟨hu, hrest⟩ := List.forall_mem_cons.1 hrounds
      have hround := path_star hm hn hn' (hm.mem_language.1 hu)
      have hmore := path_star_of_mem_kstar hm hn hn' (Language.mem_kstar.2 ⟨rounds, rfl, hrest⟩)
      have hout : (m.star n).Path m.exit [] (n + 1) := path_star_exit hm hn hn' (.stay _)
      refine epsilon_star hm hn hn' (.inl rfl) (.inl rfl) ?_
      simpa using hround.append (hmore.append hout)

end star

/-- A part that is only left from its exit, and only for a state without edges. -/
theorem Fragment.path_of_part (hl : Fragment l) {e : Nat} (he : ¬ l.Has e)
    (hlast : ∀ lab j, ¬ j ∈ m.targetsOf lab e)
    (hpart : ∀ {lab i j}, l.Has i → j ∈ m.targetsOf lab i →
      j ∈ l.targetsOf lab i ∨ (i = l.exit ∧ lab = .epsilon ∧ j = e))
    (h : m.Path i w e) (hi : l.Has i) : l.Path i w l.exit := by
  refine h.rec_edge (P := fun i w => l.Has i → l.Path i w l.exit) ?_ ?_ hi
  · exact fun h => (he h).elim
  · intro lab i j w hj hp ih hi
    obtain hj | ⟨rfl, rfl, rfl⟩ := hpart hi hj
    · exact .edge hj (ih (hl.has_target hj))
    · obtain ⟨rfl, _⟩ := hp.eq_of_no_edge hlast
      exact .stay _

section union
variable (hl : Fragment l) (hr : Fragment r) (hln : ¬ l.Has n) (hln' : ¬ l.Has (n + 1))
  (hrn : ¬ r.Has n) (hrn' : ¬ r.Has (n + 1)) (h : ∀ i, l.Has i → ¬ r.Has i)
include hl hr hln hln' hrn hrn' h

theorem path_of_union_left (hp : (l.union n r).Path l.entry w (n + 1)) :
    l.Path l.entry w l.exit := by
  have hlast := (hl.union hr hln hln' hrn hrn' h).not_mem_exit
  refine hl.path_of_part hln' hlast ?_ hp hl.has_entry
  intro lab i j hi hj
  obtain hj | hj | ⟨rfl, _⟩ | ⟨rfl | rfl, hlast⟩ :=
    (mem_targetsOf_union hln hln' hrn hrn' h hl.has_exit hr.has_exit).1 hj
  · exact .inl hj
  · exact (h i hi (Has.of_target hj)).elim
  · exact (hln hi).elim
  · exact .inr ⟨rfl, hlast⟩
  · exact (h _ hi hr.has_exit).elim

theorem path_of_union_right (hp : (l.union n r).Path r.entry w (n + 1)) :
    r.Path r.entry w r.exit := by
  have hlast := (hl.union hr hln hln' hrn hrn' h).not_mem_exit
  refine hr.path_of_part hrn' hlast ?_ hp hr.has_entry
  intro lab i j hi hj
  obtain hj | hj | ⟨rfl, _⟩ | ⟨rfl | rfl, hlast⟩ :=
    (mem_targetsOf_union hln hln' hrn hrn' h hl.has_exit hr.has_exit).1 hj
  · exact (h i (Has.of_target hj) hi).elim
  · exact .inl hj
  · exact (hrn hi).elim
  · exact (h _ hl.has_exit hi).elim
  · exact .inr ⟨rfl, hlast⟩

theorem path_union_left (hp : l.Path i w k) : (l.union n r).Path i w k :=
  hp.mono fun hj => (mem_targetsOf_union hln hln' hrn hrn' h hl.has_exit hr.has_exit).2 (.inl hj)

theorem path_union_right (hp : r.Path i w k) : (l.union n r).Path i w k :=
  hp.mono fun hj =>
    (mem_targetsOf_union hln hln' hrn hrn' h hl.has_exit hr.has_exit).2 (.inr (.inl hj))

/-- From both exits an edge leads to the common one. -/
theorem path_union_exit (hi : i = l.exit ∨ i = r.exit) : (l.union n r).Path i [] (n + 1) :=
  .epsilon ((mem_targetsOf_union hln hln' hrn hrn' h hl.has_exit hr.has_exit).2
    (.inr (.inr (.inr ⟨hi, rfl, rfl⟩)))) (.stay _)

theorem path_union_left_exit (hp : l.Path i w l.exit) : (l.union n r).Path i w (n + 1) := by
  have hin := path_union_left hl hr hln hln' hrn hrn' h hp
  simpa using hin.append (path_union_exit hl hr hln hln' hrn hrn' h (.inl rfl))

theorem path_union_right_exit (hp : r.Path i w r.exit) : (l.union n r).Path i w (n + 1) := by
  have hin := path_union_right hl hr hln hln' hrn hrn' h hp
  simpa using hin.append (path_union_exit hl hr hln hln' hrn hrn' h (.inr rfl))

theorem epsilon_union (hi : i = l.entry ∨ i = r.entry) (hp : (l.union n r).Path i w k) :
    (l.union n r).Path n w k :=
  .epsilon ((mem_targetsOf_union hln hln' hrn hrn' h hl.has_exit hr.has_exit).2
    (.inr (.inr (.inl ⟨rfl, rfl, hi⟩)))) hp

theorem language_union : (l.union n r).language = l.language + r.language := by
  have hedge {lab : Label} {i j : Nat} : j ∈ (l.union n r).targetsOf lab i ↔ _ :=
    mem_targetsOf_union hln hln' hrn hrn' h hl.has_exit hr.has_exit
  refine Language.ext fun w => ?_
  rw [(hl.union hr hln hln' hrn hrn' h).mem_language, Language.mem_add, hl.mem_language,
    hr.mem_language]
  change (l.union n r).Path n w (n + 1) ↔ _
  constructor
  · intro hp
    obtain ⟨_, he⟩ | ⟨lab, j, v, rfl, hj, hp⟩ := hp.eq_or_edge
    · omega
    · obtain hj | hj | ⟨_, rfl, rfl | rfl⟩ | ⟨hn | hn, _⟩ := hedge.1 hj
      · exact (hln (Has.of_target hj)).elim
      · exact (hrn (Has.of_target hj)).elim
      · exact .inl (path_of_union_left hl hr hln hln' hrn hrn' h hp)
      · exact .inr (path_of_union_right hl hr hln hln' hrn hrn' h hp)
      · exact (hln (hn ▸ hl.has_exit)).elim
      · exact (hrn (hn ▸ hr.has_exit)).elim
  · intro hp
    cases hp with
    | inl hp =>
      exact epsilon_union hl hr hln hln' hrn hrn' h (.inl rfl)
        (path_union_left_exit hl hr hln hln' hrn hrn' h hp)
    | inr hp =>
      exact epsilon_union hl hr hln hln' hrn hrn' h (.inr rfl)
        (path_union_right_exit hl hr hln hln' hrn hrn' h hp)

end union

theorem path_concat_left (hl : Fragment l) (h : ∀ i, l.Has i → ¬ r.Has i) (hp : l.Path i w k) :
    (l.concat r).Path i w k :=
  hp.mono fun hj => (mem_targetsOf_concat h hl.has_exit).2 (.inl hj)

section concat
variable (hl : Fragment l) (hr : Fragment r) (h : ∀ i, l.Has i → ¬ r.Has i)
include hl hr h

/-- Behind its first edge a path of the right operand never sees the dropped entry again. -/
theorem path_concat_right (hp : r.Path i w k) (hi : i ≠ r.entry) : (l.concat r).Path i w k := by
  refine hp.rec_edge (P := fun i w => i ≠ r.entry → (l.concat r).Path i w k) ?_ ?_ hi
  · exact fun _ => .stay k
  · intro lab i j w hj _ ih hi
    exact .edge ((mem_targetsOf_concat h hl.has_exit).2 (.inr (.inr ⟨hj, hi⟩)))
      (ih (hr.target_ne_entry hj))

theorem path_of_concat_right (hp : (l.concat r).Path i w k) (hi : r.Has i) : r.Path i w k := by
  refine hp.rec_edge (P := fun i w => r.Has i → r.Path i w k) ?_ ?_ hi
  · exact fun _ => .stay k
  · intro lab i j w hj _ ih hi
    obtain hj | ⟨rfl, _⟩ | ⟨hj, _⟩ := (mem_targetsOf_concat h hl.has_exit).1 hj
    · exact (h i (Has.of_target hj) hi).elim
    · exact (h _ hl.has_exit hi).elim
    · exact .edge hj (ih (hr.has_target hj))

theorem exists_of_path_concat (hp : (l.concat r).Path i w r.exit) (hi : l.Has i) :
    ∃ u v, w = u ++ v ∧ l.Path i u l.exit ∧ r.Path r.entry v r.exit := by
  refine hp.rec_edge (P := fun i w => l.Has i →
    ∃ u v, w = u ++ v ∧ l.Path i u l.exit ∧ r.Path r.entry v r.exit) ?_ ?_ hi
  · exact fun hi => (h _ hi hr.has_exit).elim
  · intro lab i j w hj hp ih hi
    obtain hj | ⟨rfl, hmoved⟩ | ⟨hj, _⟩ := (mem_targetsOf_concat h hl.has_exit).1 hj
    · obtain ⟨u, v, rfl, hu, hv⟩ := ih (hl.has_target hj)
      exact ⟨lab.word ++ u, v, by rw [List.append_assoc], .edge hj hu, hv⟩
    · have hright := path_of_concat_right hl hr h hp (hr.has_target hmoved)
      exact ⟨[], lab.word ++ w, rfl, .stay _, .edge hmoved hright⟩
    · exact (h i hi (Has.of_target hj)).elim

/-- The right operand is entered at the exit of the left one. -/
theorem path_concat_joint (hp : r.Path r.entry w k) (hk : k ≠ r.entry) :
    (l.concat r).Path l.exit w k := by
  obtain ⟨_, he⟩ | ⟨lab, j, v, rfl, hj, hp⟩ := hp.eq_or_edge
  · exact (hk he.symm).elim
  · exact .edge ((mem_targetsOf_concat h hl.has_exit).2 (.inr (.inl ⟨rfl, hj⟩)))
      (path_concat_right hl hr h hp (hr.target_ne_entry hj))

theorem path_concat {u v : List Char} (hu : l.Path i u l.exit) (hv : r.Path r.entry v k)
    (hk : k ≠ r.entry) : (l.concat r).Path i (u ++ v) k :=
  (path_concat_left hl h hu).append (path_concat_joint hl hr h hv hk)

theorem language_concat : (l.concat r).language = l.language * r.language := by
  refine Language.ext fun w => ?_
  rw [(hl.concat hr h).mem_language, Language.mem_mul]
  change (l.concat r).Path l.entry w r.exit ↔ _
  constructor
  · intro hp
    obtain ⟨u, v, rfl, hu, hv⟩ := exists_of_path_concat hl hr h hp hl.has_entry
    exact ⟨u, hl.mem_language.2 hu, v, hr.mem_language.2 hv, rfl⟩
  · intro ⟨u, hu, v, hv, hw⟩
    subst hw
    exact path_concat hl hr h (hl.mem_language.1 hu) (hr.mem_language.1 hv) hr.entry_ne_exit.symm

end concat

end Nfa
end RegexAutomata
