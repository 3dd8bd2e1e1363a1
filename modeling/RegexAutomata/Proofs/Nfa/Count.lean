import RegexAutomata.Proofs.Nfa.Hereditary
import RegexAutomata.Proofs.Nfa.Issue

/-! What the combinators make of the states and edges of their operands: none is lost and none is
doubled. So a postfix form determines how many states and edges are built from it, and their labels
up to order. -/
namespace RegexAutomata

def Label.char? : Label → Option Char
  | .symbol c => some c
  | .epsilon => none

theorem Label.char?_eq_some_iff {lab : Label} {c : Char} :
    lab.char? = some c ↔ lab = .symbol c := by
  cases lab <;> simp [char?]

namespace Nfa
variable {m l r : Nfa} {n a j : Nat} {lab : Label} {more : List Edge}

def State.labels (s : State) : List Label := s.edges.map Edge.label

def labels (m : Nfa) : List Label := m.states.toList.flatMap State.labels

section absorb

theorem perm_states_absorb (h : ∀ i, l.Has i → ¬ r.Has i) :
    (l.absorb r).states.toList.Perm (l.states.toList ++ r.states.toList) := by
  apply Keyed.perm_union
  intro s hs s' hs' hid
  apply h s.id (Has.of_mem hs)
  rw [hid]
  exact Has.of_mem hs'

theorem size_absorb (h : ∀ i, l.Has i → ¬ r.Has i) : (l.absorb r).size = l.size + r.size := by
  have hlength := (perm_states_absorb h).length_eq
  rwa [List.length_append] at hlength

theorem labels_absorb (h : ∀ i, l.Has i → ¬ r.Has i) :
    (l.absorb r).labels.Perm (l.labels ++ r.labels) := by
  have hperm := (perm_states_absorb h).flatMap_right State.labels
  rwa [List.flatMap_append] at hperm

end absorb

section modify
variable {states : Keyed State.id}

/-- A state that is there takes on edges, and its old edges stay. -/
theorem labels_modify {f : State → State} (hf : ∀ s, (f s).id = s.id) (ha : m.Has a)
    (hmore : ∀ s, (f s).edges = s.edges ++ more) :
    ((m.states.modify a f hf).toList.flatMap State.labels).Perm
      (more.map Edge.label ++ m.labels) := by
  obtain ⟨s, hs⟩ := Option.isSome_iff_exists.1 ha
  have hold := (Keyed.perm_cons_erase hs).flatMap_right State.labels
  have hnew := (Keyed.perm_modify hs f hf).flatMap_right State.labels
  rw [List.flatMap_cons] at hold
  rw [List.flatMap_cons, State.labels, hmore, List.map_append, List.append_assoc] at hnew
  exact hnew.trans ((List.perm_append_comm_assoc ..).trans (hold.symm.append_left _))

/-- Flags can change without any effect on the edges. -/
theorem labels_modify_of_eq {f : State → State} (hf : ∀ s, (f s).id = s.id)
    (hedges : ∀ s, (f s).edges = s.edges) :
    (states.modify a f hf).toList.flatMap State.labels = states.toList.flatMap State.labels := by
  rw [Keyed.modify, List.flatMap_map]
  apply List.flatMap_congr
  intro s _
  by_cases hs : s.id = a <;> simp [hs, State.labels, hedges]

theorem size_link (m : Nfa) (a : Nat) (lab : Label) (j : Nat) : (m.link a lab j).size = m.size :=
  List.length_map _

theorem labels_link (ha : m.Has a) (lab : Label) (j : Nat) :
    (m.link a lab j).labels.Perm (lab :: m.labels) :=
  labels_modify (f := fun s => { s with edges := s.edges ++ [⟨lab, j⟩] }) (fun _ => rfl) ha
    fun _ => rfl

def links (m : Nfa) (lab : Label) (pairs : List (Nat × Nat)) : Nfa :=
  pairs.foldl (fun m p => m.link p.1 lab p.2) m

theorem labels_links (lab : Label) (pairs : List (Nat × Nat)) (h : ∀ p ∈ pairs, m.Has p.1) :
    (m.links lab pairs).labels.Perm (List.replicate pairs.length lab ++ m.labels) := by
  induction pairs generalizing m with
  | nil => exact .refl _
  | cons p pairs ih =>
    obtain ⟨hp, hpairs⟩ := List.forall_mem_cons.1 h
    have hrest := ih (m := m.link p.1 lab p.2) fun q hq => has_link.2 (hpairs q hq)
    apply hrest.trans
    rw [List.length_cons, List.replicate_succ', List.append_assoc]
    exact (labels_link hp lab p.2).append_left _

theorem size_interior (m : Nfa) : m.interior.size = m.size :=
  (List.length_map _).trans (List.length_map _)

theorem labels_interior (m : Nfa) : m.interior.labels = m.labels := by
  rw [labels, interior, inner, labels_modify_of_eq, labels_modify_of_eq, labels]
  all_goals exact fun _ => rfl

theorem size_joint (l r : Nfa) : (l.joint r).size = l.size := List.length_map _

/-- The exit takes on the edges that leave the other entry. -/
theorem labels_joint (hexit : l.Has l.exit) (r : Nfa) :
    (l.joint r).labels.Perm (r.entryEdges.map Edge.label ++ l.labels) := by
  rw [labels, states_joint]
  exact labels_modify (State.id_extended _) hexit fun _ => rfl

theorem size_tail (hentry : r.Has r.entry) : r.tail.size + 1 = r.size := by
  obtain ⟨s, hs⟩ := Option.isSome_iff_exists.1 hentry
  exact (Keyed.perm_cons_erase hs).length_eq.symm

theorem labels_tail (hentry : r.Has r.entry) :
    r.labels.Perm (r.entryEdges.map Edge.label ++ r.tail.labels) := by
  obtain ⟨s, hs⟩ := Option.isSome_iff_exists.1 hentry
  have hperm := (Keyed.perm_cons_erase hs).flatMap_right State.labels
  have hedges : r.entryEdges = s.edges := by rw [entryEdges, hs, Option.map_some, Option.getD_some]
  rwa [List.flatMap_cons, State.labels, ← hedges] at hperm

end modify

section combinators

theorem size_ends (n : Nat) : (ends n).size = 2 := by
  simp [size, Keyed.size, ends, Keyed.ofList, Keyed.insert, Keyed.place, Keyed.empty]

theorem labels_ends (n : Nat) : (ends n).labels = [] := by
  simp [labels, State.labels, ends, Keyed.ofList, Keyed.insert, Keyed.place, Keyed.empty]

theorem size_symbol (n : Nat) (c : Char) : (symbol n c).size = 2 :=
  (size_link ..).trans (size_ends n)

theorem labels_symbol (n : Nat) (c : Char) : (symbol n c).labels.Perm [.symbol c] := by
  have hlink := labels_link (has_ends.2 (.inl rfl) : (ends n).Has n) (.symbol c) (n + 1)
  rwa [labels_ends] at hlink

theorem size_star (hn : ¬ m.Has n) (hn' : ¬ m.Has (n + 1)) : (m.star n).size = m.size + 2 := by
  rw [star_eq, size_link, size_link, size_link, size_link, size_absorb (ends_disjoint hn hn'),
    size_ends, size_interior, Nat.add_comm]

/-- All four edges of a star have a state to leave from. -/
theorem labels_star (hm : Fragment m) (hn : ¬ m.Has n) (hn' : ¬ m.Has (n + 1)) :
    (m.star n).labels.Perm (List.replicate 4 .epsilon ++ m.labels) := by
  have hinner := labels_absorb (ends_disjoint hn hn')
  rw [labels_ends, labels_interior, List.nil_append] at hinner
  have hlinks := labels_links (m := (ends n).absorb m.interior) .epsilon
    [(n, m.entry), (n, n + 1), (m.exit, n + 1), (m.exit, m.entry)]
    (by simp [has_absorb, has_ends, has_interior, hm.has_exit])
  exact hlinks.trans (hinner.append_left _)

theorem size_union (hln : ¬ l.Has n) (hln' : ¬ l.Has (n + 1)) (hrn : ¬ r.Has n)
    (hrn' : ¬ r.Has (n + 1)) (h : ∀ i, l.Has i → ¬ r.Has i) :
    (l.union n r).size = l.size + r.size + 2 := by
  rw [union_eq, size_link, size_link, size_link, size_link, size_absorb (absorb_disjoint hrn hrn' h),
    size_absorb (ends_disjoint hln hln'), size_ends, size_interior, size_interior]
  omega

theorem labels_union (hl : Fragment l) (hr : Fragment r) (hln : ¬ l.Has n)
    (hln' : ¬ l.Has (n + 1)) (hrn : ¬ r.Has n) (hrn' : ¬ r.Has (n + 1))
    (h : ∀ i, l.Has i → ¬ r.Has i) :
    (l.union n r).labels.Perm (List.replicate 4 .epsilon ++ (l.labels ++ r.labels)) := by
  have hleft := labels_absorb (ends_disjoint hln hln')
  have hboth := labels_absorb (absorb_disjoint (l := l) hrn hrn' h)
  rw [labels_ends, labels_interior, List.nil_append] at hleft
  rw [labels_interior] at hboth
  have hlinks := labels_links (m := ((ends n).absorb l.interior).absorb r.interior) .epsilon
    [(n, l.entry), (n, r.entry), (l.exit, n + 1), (r.exit, n + 1)]
    (by simp [has_absorb, has_ends, has_interior, hl.has_exit, hr.has_exit])
  exact hlinks.trans ((hboth.trans (hleft.append_right _)).append_left _)

/-- Only the entry of the right operand is dropped. -/
theorem size_concat (hr : Fragment r) (h : ∀ i, l.Has i → ¬ r.Has i) :
    (l.concat r).size + 1 = l.size + r.size := by
  rw [← size_tail hr.has_entry, ← size_joint l r, ← Nat.add_assoc, ← size_absorb (joint_disjoint h)]
  rfl

theorem labels_concat (hl : Fragment l) (hr : Fragment r) (h : ∀ i, l.Has i → ¬ r.Has i) :
    (l.concat r).labels.Perm (l.labels ++ r.labels) := by
  let moved := r.entryEdges.map Edge.label
  calc
    List.Perm (l.concat r).labels ((l.joint r).labels ++ r.tail.labels) :=
      labels_absorb (joint_disjoint h)
    List.Perm _ (moved ++ l.labels ++ r.tail.labels) :=
      (labels_joint hl.has_exit r).append_right _
    List.Perm _ (l.labels ++ moved ++ r.tail.labels) := List.perm_append_comm.append_right _
    List.Perm _ (l.labels ++ r.labels) := by
      rw [List.append_assoc]
      exact (labels_tail hr.has_entry).symm.append_left _

end combinators

end Nfa

namespace Assembly
open Nfa
variable {A : Alphabet} {w w' w'' : Assembly} {position : Nat} {c : Char} {o : Operator}
  {s t : List Char} {p : List (Nfa × Language Char)}

def size (w : Assembly) : Nat := w.stack.foldr (fun m n => m.size + n) 0

def labels (w : Assembly) : List Label := w.stack.flatMap Nfa.labels

def drawn (A : Alphabet) (c : Char) : List Label :=
  if A.contains c then [.symbol c] else if c = '*' ∨ c = '+' then List.replicate 4 .epsilon else []

theorem not_contains (A : Alphabet) (o : Operator) : A.contains o.char = false :=
  Alphabet.contains_of_isReserved (by cases o <;> rfl)

section drawn

theorem filterMap_drawn (A : Alphabet) (t : List Char) :
    (t.flatMap (drawn A)).filterMap Label.char? = t.filter A.contains := by
  induction t with
  | nil => rfl
  | cons c t ih =>
    rw [List.flatMap_cons, List.filterMap_append, ih]
    by_cases hA : A.contains c = true
    · simp [drawn, hA, Label.char?]
    · by_cases hc : c = '*' ∨ c = '+' <;> simp [drawn, hA, hc, Label.char?]

theorem count_epsilon_drawn (A : Alphabet) (t : List Char) :
    (t.flatMap (drawn A)).count .epsilon = 4 * (t.count '*' + t.count '+') := by
  have hstar : A.contains '*' = false := not_contains A .star
  have hplus : A.contains '+' = false := not_contains A .union
  induction t with
  | nil => rfl
  | cons c t ih =>
    rw [List.flatMap_cons, List.count_append, ih, List.count_cons, List.count_cons]
    by_cases hs : c = '*'
    · simp [drawn, hs, hstar]
      omega
    · by_cases hp : c = '+'
      · simp [drawn, hp, hplus]
        omega
      · by_cases hA : A.contains c = true <;> simp [drawn, hA, hs, hp]

/-- The symbols, stars and unions of a text: each of them takes a pair of ids. -/
def pairs (A : Alphabet) (t : List Char) : Nat := t.countP A.contains + t.count '*' + t.count '+'

/-- A text in which all characters but the concatenations take ids. -/
theorem length_eq (h : ∀ c ∈ t, takesIds A c = true ∨ c = '.') :
    t.length = t.countP (takesIds A) + t.count '.' := by
  have hA : A.contains '.' = false := not_contains A .concat
  have hdot : takesIds A '.' = false := by simp [takesIds, hA]
  rw [List.length_eq_countP_add_countP (takesIds A), List.count]
  congr 1
  apply List.countP_congr
  intro c hc
  rw [beq_iff_eq, decide_eq_true_iff]
  constructor
  · exact (h c hc).resolve_left
  · rintro rfl
    rw [hdot]
    exact Bool.false_ne_true

theorem countP_takesIds (A : Alphabet) (t : List Char) : t.countP (takesIds A) = pairs A t := by
  rw [pairs]
  have hstar : A.contains '*' = false := not_contains A .star
  have hplus : A.contains '+' = false := not_contains A .union
  induction t with
  | nil => rfl
  | cons c t ih =>
    rw [List.countP_cons, List.countP_cons, List.count_cons, List.count_cons, ih]
    by_cases hs : c = '*'
    · simp [takesIds, hs, hstar]
      omega
    · by_cases hp : c = '+'
      · simp [takesIds, hp, hplus]
        omega
      · by_cases hA : A.contains c = true <;> simp [takesIds, hA, hs, hp]
        omega

end drawn

/-- Between two assemblies the text `t` was read, and every state and every edge is accounted for. -/
structure Draws (A : Alphabet) (w : Assembly) (t : List Char) (w' : Assembly) : Prop where
  takesIds_or_dot : ∀ c ∈ t, takesIds A c = true ∨ c = '.'
  size_eq : w'.size + t.count '.' = w.size + 2 * t.countP (takesIds A)
  labels_perm : w'.labels.Perm (t.flatMap (drawn A) ++ w.labels)

theorem Draws.trans (h : Draws A w s w') (h' : Draws A w' t w'') : Draws A w (s ++ t) w'' where
  takesIds_or_dot := by
    intro c hc
    exact (List.mem_append.1 hc).elim (h.takesIds_or_dot c) (h'.takesIds_or_dot c)
  size_eq := by
    have hs := h.size_eq
    have ht := h'.size_eq
    rw [List.count_append, List.countP_append]
    omega
  labels_perm := by
    rw [List.flatMap_append, List.append_assoc]
    exact h'.labels_perm.trans
      ((h.labels_perm.append_left _).trans (List.perm_append_comm_assoc ..))

theorem draws_pushSymbol (hc : role c = .operand) (hA : A.contains c = true) (w : Assembly) :
    Draws A w [c] (w.pushSymbol c) where
  takesIds_or_dot := by simp [takesIds, hA]
  size_eq := by
    have hdot : c ≠ '.' := fun he => by simp [he, role] at hc
    simp [size, pushSymbol, size_symbol, hdot, takesIds, hA]
    omega
  labels_perm := by
    simpa [labels, pushSymbol, drawn, hA] using
      (labels_symbol w.issued c).append_right (w.stack.flatMap Nfa.labels)

/-- An operator takes its operands off the stack and leaves all that they have. -/
theorem Sound.draws_operate? (h : w.Sound) (ho : w.operate? o = some w') :
    Draws A w [o.char] w' := by
  obtain ⟨m, rest, rfl, hs, rfl⟩ | ⟨l, r, rest, rfl, hs, rfl⟩ | ⟨l, r, rest, rfl, hs, rfl⟩ :=
    operate?_eq_some ho
  · obtain ⟨hm, hn, hn'⟩ := h.operand hs
    have hsize := size_star hn hn'
    have hlabels := labels_star hm hn hn'
    have hA : A.contains '*' = false := not_contains A .star
    constructor
    · simp [takesIds, Operator.char]
    · simp [size, hs, hsize, takesIds, Operator.char]
      omega
    · simpa [labels, hs, drawn, hA, Operator.char] using
        hlabels.append_right (rest.flatMap Nfa.labels)
  · obtain ⟨hl, hr, hln, hln', hrn, hrn', hdisjoint⟩ := h.operands hs
    have hsize := size_union hln hln' hrn hrn' hdisjoint
    have hlabels := (labels_union hl hr hln hln' hrn hrn' hdisjoint).trans
      (List.perm_append_comm.append_left _)
    have hA : A.contains '+' = false := not_contains A .union
    constructor
    · simp [takesIds, Operator.char]
    · simp [size, hs, hsize, takesIds, Operator.char]
      omega
    · simpa [labels, hs, drawn, hA, Operator.char] using
        hlabels.append_right (rest.flatMap Nfa.labels)
  · obtain ⟨hl, hr, _, _, _, _, hdisjoint⟩ := h.operands hs
    have hsize := size_concat hr hdisjoint
    have hlabels := (labels_concat hl hr hdisjoint).trans List.perm_append_comm
    have hA : A.contains '.' = false := not_contains A .concat
    constructor
    · simp [Operator.char]
    · simp [size, hs, takesIds, hA, Operator.char]
      omega
    · simpa [labels, hs, drawn, hA, Operator.char] using
        hlabels.append_right (rest.flatMap Nfa.labels)

theorem Sound.draws_step (h : w.Sound) (hs : w.step A position c = .ok w') : Draws A w [c] w' := by
  obtain ⟨hc, hA, rfl⟩ | ⟨o, hc, ho⟩ := step_eq_ok hs
  · exact draws_pushSymbol hc hA w
  · obtain rfl := role_eq_operator_iff.1 hc
    exact h.draws_operate? ho

/-- A run without a fault draws what its characters bring with them. -/
theorem draws_run (hp : Construction w.issued p) (hw : w.stack = p.map Prod.fst)
    (h : (w.run A position t).fault = none) : Draws A w t (w.run A position t).last := by
  induction t generalizing w position p with
  | nil => exact ⟨fun c hc => (List.not_mem_nil hc).elim, rfl, .refl _⟩
  | cons c t ih =>
    cases hs : w.step A position c with
    | error f => simp [run, hs] at h
    | ok w' =>
      simp only [run, hs] at h ⊢
      obtain ⟨q, hq, hstack, _⟩ := hp.step hw hs
      exact ((sound_of_construction hp hw).draws_step hs).trans (ih hq hstack h)

end Assembly

namespace Nfa
open Assembly
variable {A : Alphabet} {k : Nat} {t : List Char} {m : Nfa}

theorem draws_ofPostfix (h : (ofPostfix A k t).result = .ok m) :
    Draws A ⟨k, []⟩ t ((Assembly.mk k []).run A 0 t).last :=
  draws_run (w := ⟨k, []⟩) (.start k) rfl (ofPostfix_eq_ok.1 h).1

/-- What is built is labelled with what the characters of the form bring with them. -/
theorem labels_ofPostfix (h : (ofPostfix A k t).result = .ok m) :
    m.labels.Perm (t.flatMap (drawn A)) := by
  have hlabels := (draws_ofPostfix h).labels_perm
  rw [Assembly.labels, (ofPostfix_eq_ok.1 h).2] at hlabels
  simpa [Assembly.labels] using hlabels

/-- Every symbol of the form labels one edge. -/
theorem symbols_ofPostfix (h : (ofPostfix A k t).result = .ok m) :
    (m.labels.filterMap Label.char?).Perm (t.filter A.contains) := by
  rw [← filterMap_drawn]
  exact (labels_ofPostfix h).filterMap _

/-- Every character takes a pair of ids, but for concatenations. Each pair of ids becomes a pair of
states, and a concatenation drops one state. Every symbol of the form labels one edge, and stars and
unions have four epsilon edges each. -/
theorem count_ofPostfix (h : (ofPostfix A k t).result = .ok m) :
    t.length = pairs A t + t.count '.' ∧
    (ofPostfix A k t).issued = k + 2 * pairs A t ∧
    m.size + t.count '.' = 2 * pairs A t ∧
    (∀ s ∈ m.states, k ≤ s.id ∧ s.id < k + 2 * pairs A t) ∧
    (m.labels.filterMap Label.char?).Perm (t.filter A.contains) ∧
    m.labels.count .epsilon = 4 * (t.count '*' + t.count '+') := by
  obtain ⟨hfault, hlast⟩ := ofPostfix_eq_ok.1 h
  have hdraws := draws_ofPostfix h
  have hlength : t.length = pairs A t + t.count '.' := by
    rw [← countP_takesIds]
    exact length_eq hdraws.takesIds_or_dot
  have hissued : (ofPostfix A k t).issued = k + 2 * pairs A t := by
    rw [issued_ofPostfix, issued_run hfault, countP_takesIds]
  have hsize : m.size + t.count '.' = 2 * pairs A t := by
    simpa [Assembly.size, hlast, countP_takesIds] using hdraws.size_eq
  refine ⟨hlength, hissued, hsize, fun s hs => ?_, symbols_ofPostfix h, ?_⟩
  · rw [← hissued]
    exact has_ofPostfix h (Has.of_mem hs)
  · rw [(labels_ofPostfix h).count_eq, count_epsilon_drawn]

/-- With five ids issued before, five pairs of states are built and one state is dropped. -/
theorem count_ofPostfix_from_five :
    ∃ m, (ofPostfix (Alphabet.empty.extend ['a', 'b']) 5 "ab+*a.".toList).result = .ok m ∧
      (ofPostfix (Alphabet.empty.extend ['a', 'b']) 5 "ab+*a.".toList).issued = 15 ∧
      m.size + 1 = 10 ∧ (∀ s ∈ m.states, 5 ≤ s.id ∧ s.id < 15) ∧
      (m.labels.filterMap Label.char?).Perm ['a', 'b', 'a'] ∧ m.labels.count .epsilon = 8 := by
  have h : (ofPostfix (Alphabet.empty.extend ['a', 'b']) 5 "ab+*a.".toList).result =
      .ok ((((symbol 5 'a').union 9 (symbol 7 'b')).star 11).concat (symbol 13 'a')) := by
    decide
  exact ⟨_, h, (count_ofPostfix h).2⟩

end Nfa
end RegexAutomata
