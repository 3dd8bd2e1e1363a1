import RegexAutomata.Proofs.Dfa.Simulation

/-! Reading words in the deterministic automaton is reading them in sets of states, and that is
following all paths at once. Hence both automata accept the same words over the alphabet. -/
namespace RegexAutomata

namespace Nfa
variable {m : Nfa} {symbols : List Char} {i j k : Nat} {c : Char} {w : List Char} {S T : IdSet}

def readWord? (m : Nfa) (symbols : List Char) (S : IdSet) : List Char → Option IdSet
  | [] => some S
  | c :: w =>
    if c ∈ symbols then (m.successor? S c).bind fun T => m.readWord? symbols T w else none

def EpsilonClosed (m : Nfa) (S : IdSet) : Prop :=
  ∀ i ∈ S, ∀ j ∈ m.targetsOf .epsilon i, j ∈ S

theorem epsilonClosed_read (m : Nfa) (S : IdSet) (c : Char) : m.EpsilonClosed (m.read S c) :=
  fun _ hi _ hj => epsilonClosure_closed hi hj

theorem mem_read : k ∈ m.read S c ↔ ∃ i ∈ S, ∃ j ∈ m.targetsOf (.symbol c) i, m.Path j [] k := by
  rw [read, mem_epsilonClosure]
  constructor
  · intro ⟨j, hj, hp⟩
    obtain ⟨i, hi, hij⟩ := mem_advance.1 hj
    exact ⟨i, hi, j, hij, hp⟩
  · intro ⟨i, hi, j, hij, hp⟩
    exact ⟨j, mem_advance.2 ⟨i, hi, hij⟩, hp⟩

theorem EpsilonClosed.mem_of_path (hS : m.EpsilonClosed S) (hi : i ∈ S) (h : m.Path i [] j) :
    j ∈ S := by
  generalize hw : [] = w at h
  induction h with
  | stay => exact hi
  | epsilon he _ ih => exact ih (hS _ hi _ he) hw
  | symbol => cases hw

/-- A path that begins inside a closed set leaves it by an edge with the first letter. -/
theorem EpsilonClosed.path_cons (hS : m.EpsilonClosed S) :
    (∃ i ∈ S, m.Path i (c :: w) k) ↔ ∃ j ∈ m.read S c, m.Path j w k := by
  constructor
  · intro ⟨i, hi, hp⟩
    generalize hv : c :: w = v at hp
    induction hp with
    | stay => cases hv
    | epsilon he _ ih => exact ih (hS _ hi _ he) hv
    | @symbol i j _ _ _ hs hp =>
      obtain ⟨rfl, rfl⟩ := List.cons.inj hv
      exact ⟨j, mem_read.2 ⟨i, hi, j, hs, .stay j⟩, hp⟩
  · intro ⟨j, hj, hp⟩
    obtain ⟨i, hi, j', hs, he⟩ := mem_read.1 hj
    exact ⟨i, hi, .symbol hs (he.append hp)⟩

theorem mem_of_readWord? (hS : m.EpsilonClosed S) (h : m.readWord? symbols S w = some T) :
    k ∈ T ↔ ∃ i ∈ S, m.Path i w k := by
  induction w generalizing S with
  | nil =>
    obtain rfl : S = T := Option.some.inj h
    exact ⟨fun hk => ⟨k, hk, .stay k⟩, fun ⟨_, hi, hp⟩ => hS.mem_of_path hi hp⟩
  | cons c w ih =>
    by_cases hc : c ∈ symbols
    · simp only [readWord?, hc, if_true] at h
      obtain ⟨U, hU, hT⟩ := Option.bind_eq_some_iff.1 h
      obtain rfl := (successor?_eq_some.1 hU).2
      rw [ih (epsilonClosed_read m S c) hT, hS.path_cons]
    · simp [readWord?, hc] at h

theorem readWord?_isSome_iff (hS : m.EpsilonClosed S) (hne : ∃ i, i ∈ S) :
    (m.readWord? symbols S w).isSome = true ↔
      (∀ c ∈ w, c ∈ symbols) ∧ ∃ i ∈ S, ∃ k, m.Path i w k := by
  induction w generalizing S with
  | nil =>
    obtain ⟨i, hi⟩ := hne
    simp only [readWord?, Option.isSome_some, true_iff]
    exact ⟨fun c hc => (List.not_mem_nil hc).elim, i, hi, i, .stay i⟩
  | cons c w ih =>
    have hpath : (∃ i ∈ S, ∃ k, m.Path i (c :: w) k) ↔ ∃ j ∈ m.read S c, ∃ k, m.Path j w k := by
      constructor
      · intro ⟨i, hi, k, hp⟩
        obtain ⟨j, hj, hq⟩ := hS.path_cons.1 ⟨i, hi, hp⟩
        exact ⟨j, hj, k, hq⟩
      · intro ⟨j, hj, k, hp⟩
        obtain ⟨i, hi, hq⟩ := hS.path_cons.2 ⟨j, hj, hp⟩
        exact ⟨i, hi, k, hq⟩
    rw [hpath, List.forall_mem_cons]
    by_cases hc : c ∈ symbols
    · cases hT : m.successor? S c with
      | none =>
        have hnone := successor?_eq_none.1 hT
        simp only [readWord?, hc, hT, if_true, Option.bind_none, Option.isSome_none,
          Bool.false_eq_true, true_and, false_iff, not_and]
        intro _ ⟨j, hj, _⟩
        obtain ⟨i, hi, _⟩ := mem_epsilonClosure.1 hj
        exact hnone i hi
      | some T =>
        obtain ⟨⟨i, hi⟩, rfl⟩ := successor?_eq_some.1 hT
        have hT' := ih (epsilonClosed_read m S c) ⟨i, subset_epsilonClosure hi⟩
        simpa [readWord?, hc, hT] using hT'
    · simp [readWord?, hc]

theorem readWord?_append (m : Nfa) (symbols : List Char) (S : IdSet) (u v : List Char) :
    m.readWord? symbols S (u ++ v) =
      (m.readWord? symbols S u).bind fun T => m.readWord? symbols T v := by
  induction u generalizing S with
  | nil => rfl
  | cons c u ih =>
    by_cases hc : c ∈ symbols
    · cases hT : m.successor? S c with
      | none => simp [readWord?, hc, hT]
      | some T => simpa [readWord?, hc, hT] using ih T
    · simp [readWord?, hc]

end Nfa

namespace Dfa
open Exploration
variable {m : Nfa} {symbols : List Char} {s : Nat} {S T : IdSet}

theorem readFrom?_append (d : Dfa) (id : Nat) (u v : List Char) :
    d.readFrom? id (u ++ v) = (d.readFrom? id u).bind fun target => d.readFrom? target v := by
  induction u generalizing id with
  | nil => rfl
  | cons c u ih =>
    rw [List.cons_append, readFrom?, readFrom?]
    cases d.next? id c with
    | none => rfl
    | some target => exact ih target

theorem originOf?_explore (m : Nfa) (symbols : List Char) (s k : Nat) :
    ((explore m symbols s).toDfa m symbols).originOf? k = (explore m symbols s).found[k]? := by
  rw [originOf?, toDfa, List.getElem?_mapIdx, Option.map_map]
  exact Option.map_id'

/-- The entry of the subset with the number `k`. -/
theorem getElem?_entries (hs : m.start? = some s) (k : Nat) :
    ((explore m symbols s).toDfa m symbols).entries[k]? =
      ((explore m symbols s).found[k]?).map fun S => ⟨S, k, k == 0, S.toList.any m.isFinal, S,
        rowOf m symbols (explore m symbols s).found S⟩ := by
  rw [toDfa, List.getElem?_mapIdx, rows_eq_map hs]
  refine Option.map_congr fun S hS => ?_
  simp [entryOf, stateOf, Option.mem_def.1 hS]

theorem state?_explore (hs : m.start? = some s) (k : Nat) :
    ((explore m symbols s).toDfa m symbols).state? k =
      ((explore m symbols s).found[k]?).map fun S => ⟨k, k == 0, S.toList.any m.isFinal, S,
        rowOf m symbols (explore m symbols s).found S⟩ := by
  rw [state?, states, List.getElem?_map, getElem?_entries hs, Option.map_map]
  rfl

theorem getElem?_idxOf (h : S ∈ (explore m symbols s).found) :
    (explore m symbols s).found[(explore m symbols s).found.idxOf S]? = some S := by
  have hlt := List.idxOf_lt_length_of_mem h
  rw [List.getElem?_eq_getElem hlt, List.getElem_idxOf hlt]

theorem next?_explore (hs : m.start? = some s) (h : S ∈ (explore m symbols s).found) (c : Char) :
    ((explore m symbols s).toDfa m symbols).next? ((explore m symbols s).found.idxOf S) c =
      if c ∈ symbols then (m.successor? S c).map (explore m symbols s).found.idxOf else none := by
  rw [next?, state?_explore hs, getElem?_idxOf h]
  exact lookup_rowOf m symbols _ S c

theorem readFrom?_explore (hs : m.start? = some s) (h : S ∈ (explore m symbols s).found)
    (w : List Char) :
    ((explore m symbols s).toDfa m symbols).readFrom? ((explore m symbols s).found.idxOf S) w =
      (m.readWord? symbols S w).map (explore m symbols s).found.idxOf := by
  induction w generalizing S with
  | nil => rfl
  | cons c w ih =>
    rw [readFrom?, next?_explore hs h, Nfa.readWord?]
    by_cases hc : c ∈ symbols
    · cases hT : m.successor? S c with
      | none => simp [hc]
      | some T =>
        have hmem := settled_explore hs h c hc T hT
        simpa [hc] using ih hmem
    · simp [hc]

/-- Every state stands for a subset that was met. -/
theorem getElem?_found (hs : m.start? = some s) {q : State}
    (hq : q ∈ ((explore m symbols s).toDfa m symbols).states) :
    (explore m symbols s).found[q.id]? = some q.origin := by
  obtain ⟨k, hk⟩ := List.mem_iff_getElem?.1 hq
  obtain ⟨S, hS, rfl⟩ := Option.map_eq_some_iff.1 ((state?_explore hs k).symm.trans hk)
  exact hS

theorem state?_of_mem (hs : m.start? = some s) {q : State}
    (hq : q ∈ ((explore m symbols s).toDfa m symbols).states) :
    ((explore m symbols s).toDfa m symbols).state? q.id = some q := by
  obtain ⟨k, hk⟩ := List.mem_iff_getElem?.1 hq
  obtain ⟨S, _, rfl⟩ := Option.map_eq_some_iff.1 ((state?_explore hs k).symm.trans hk)
  exact hk

/-- States are told apart by the sets they stand for. -/
theorem eq_of_origin_eq (hs : m.start? = some s) {q q' : State}
    (hq : q ∈ ((explore m symbols s).toDfa m symbols).states)
    (hq' : q' ∈ ((explore m symbols s).toDfa m symbols).states) (h : q.origin = q'.origin) :
    q = q' := by
  have hfound : (explore m symbols s).found[q.id]? = some q.origin := getElem?_found hs hq
  have hfound' : (explore m symbols s).found[q'.id]? = some q.origin := by
    rw [getElem?_found hs hq', h]
  have hlt := (List.getElem?_eq_some_iff.1 hfound).1
  have hdistinct : (explore m symbols s).found.Nodup := (sound_explore hs).distinct
  have hid : q.id = q'.id := (List.getElem?_inj hlt hdistinct).1 (hfound.trans hfound'.symm)
  have hstate := state?_of_mem hs hq
  rw [hid, state?_of_mem hs hq'] at hstate
  exact (Option.some.inj hstate).symm

theorem first_found (hs : m.start? = some s) :
    m.epsilonClosure (.ofList [s]) ∈ (explore m symbols s).found ∧
      (explore m symbols s).found.idxOf (m.epsilonClosure (.ofList [s])) = 0 := by
  have hfirst : (explore m symbols s).found[0]? = some _ := (sound_explore hs).first
  refine ⟨List.mem_of_getElem? hfirst, ?_⟩
  cases hf : (explore m symbols s).found with
  | nil => simp [hf] at hfirst
  | cons S found => simp_all

/-- Where reading a word from the start ends, told by the sets of `m`. -/
theorem readFrom?_start (hs : m.start? = some s) (w : List Char) :
    ((explore m symbols s).toDfa m symbols).readFrom? 0 w =
      (m.readWord? symbols (m.epsilonClosure (.ofList [s])) w).map
        (explore m symbols s).found.idxOf := by
  have hmem : _ ∈ (explore m symbols s).found := (first_found hs).1
  have h := readFrom?_explore hs hmem w
  rwa [(first_found hs).2] at h

theorem mem_found_of_readWord? (hs : m.start? = some s) (hS : S ∈ (explore m symbols s).found)
    {w : List Char} (h : m.readWord? symbols S w = some T) : T ∈ (explore m symbols s).found := by
  induction w generalizing S with
  | nil => exact Option.some.inj h ▸ hS
  | cons c w ih =>
    by_cases hc : c ∈ symbols
    · simp only [Nfa.readWord?, hc, if_true] at h
      obtain ⟨U, hU, hT⟩ := Option.bind_eq_some_iff.1 h
      exact ih (settled_explore hs hS c hc U hU) hT
    · simp [Nfa.readWord?, hc] at h

/-- The state in which a word ends stands for the set in which it ends. -/
theorem exists_state_of_readWord? (hs : m.start? = some s) {w : List Char}
    (h : m.readWord? symbols (m.epsilonClosure (.ofList [s])) w = some T) :
    ∃ q ∈ ((explore m symbols s).toDfa m symbols).states,
      ((explore m symbols s).toDfa m symbols).readFrom? 0 w = some q.id ∧
      ((explore m symbols s).toDfa m symbols).state? q.id = some q ∧
      q.origin = T ∧ q.isFinal = T.toList.any m.isFinal := by
  have hT := mem_found_of_readWord? hs (first_found hs).1 h
  have hstate : ((explore m symbols s).toDfa m symbols).state? _ = _ :=
    state?_explore hs ((explore m symbols s).found.idxOf T)
  rw [getElem?_idxOf hT, Option.map_some] at hstate
  refine ⟨_, List.mem_of_getElem? hstate, ?_, hstate, rfl, rfl⟩
  rw [readFrom?_start hs, h]
  rfl

theorem exists_path_start {w : List Char} {k : Nat} :
    (∃ i ∈ m.epsilonClosure (.ofList [s]), m.Path i w k) ↔ m.Path s w k := by
  constructor
  · intro ⟨i, hi, hp⟩
    obtain ⟨s', hs', he⟩ := Nfa.mem_epsilonClosure.1 hi
    obtain rfl : s' = s := List.mem_singleton.1 (IdSet.mem_ofList.1 hs')
    exact he.append hp
  · intro hp
    exact ⟨s, Nfa.subset_epsilonClosure (IdSet.mem_ofList.2 (List.mem_singleton_self s)), hp⟩

theorem epsilonClosed_start : m.EpsilonClosed (m.epsilonClosure (.ofList [s])) :=
  fun _ hi _ hj => Nfa.epsilonClosure_closed hi hj

theorem readWord?_start_isSome_iff {w : List Char} :
    (m.readWord? symbols (m.epsilonClosure (.ofList [s])) w).isSome = true ↔
      (∀ c ∈ w, c ∈ symbols) ∧ ∃ k, m.Path s w k := by
  have hne : ∃ i, i ∈ m.epsilonClosure (.ofList [s]) :=
    ⟨s, Nfa.subset_epsilonClosure (IdSet.mem_ofList.2 (List.mem_singleton_self s))⟩
  rw [Nfa.readWord?_isSome_iff epsilonClosed_start hne, and_congr_right_iff]
  intro _
  constructor
  · intro ⟨i, hi, k, hp⟩
    exact ⟨k, exists_path_start.1 ⟨i, hi, hp⟩⟩
  · intro ⟨k, hp⟩
    obtain ⟨i, hi, hq⟩ := exists_path_start.2 hp
    exact ⟨i, hi, k, hq⟩

theorem mem_of_readWord?_start {w : List Char} {k : Nat}
    (h : m.readWord? symbols (m.epsilonClosure (.ofList [s])) w = some T) :
    k ∈ T ↔ m.Path s w k := by
  rw [Nfa.mem_of_readWord? epsilonClosed_start h, exists_path_start]

theorem readFrom?_start_eq_none (hs : m.start? = some s) {w : List Char}
    (h : ¬ ((∀ c ∈ w, c ∈ symbols) ∧ ∃ k, m.Path s w k)) :
    ((explore m symbols s).toDfa m symbols).readFrom? 0 w = none := by
  have hnone := mt readWord?_start_isSome_iff.1 h
  rw [readFrom?_start hs, Option.not_isSome_iff_eq_none.1 hnone]
  rfl

/-- The state in which a word ends, if its letters and edges allow to read it at all. -/
theorem exists_state_reached (hs : m.start? = some s) {w : List Char}
    (hw : ∀ c ∈ w, c ∈ symbols) (hp : ∃ k, m.Path s w k) :
    ∃ q ∈ ((explore m symbols s).toDfa m symbols).states,
      ((explore m symbols s).toDfa m symbols).readFrom? 0 w = some q.id ∧
      ((explore m symbols s).toDfa m symbols).state? q.id = some q ∧
      (∀ k, k ∈ q.origin ↔ m.Path s w k) ∧ q.isFinal = q.origin.toList.any m.isFinal := by
  obtain ⟨T, hT⟩ := Option.isSome_iff_exists.1 (readWord?_start_isSome_iff.2 ⟨hw, hp⟩)
  obtain ⟨q, hq, hread, hstate, rfl, hfinal⟩ := exists_state_of_readWord? hs hT
  exact ⟨q, hq, hread, hstate, fun k => mem_of_readWord?_start hT, hfinal⟩

theorem accepts_explore (hs : m.start? = some s) (w : List Char) :
    ((explore m symbols s).toDfa m symbols).accepts w = true ↔
      (∀ c ∈ w, c ∈ symbols) ∧ ∃ k, m.Path s w k ∧ m.isFinal k = true := by
  have hstart : ((explore m symbols s).toDfa m symbols).start = 0 := rfl
  rw [accepts, hstart]
  by_cases h : (∀ c ∈ w, c ∈ symbols) ∧ ∃ k, m.Path s w k
  · obtain ⟨q, _, hread, hstate, horigin, hfinal⟩ := exists_state_reached hs h.1 h.2
    rw [hread, Option.bind_some, hstate, Option.any_some, hfinal, List.any_eq_true]
    constructor
    · intro ⟨k, hk, hf⟩
      exact ⟨h.1, k, (horigin k).1 hk, hf⟩
    · intro ⟨_, k, hp, hf⟩
      exact ⟨k, (horigin k).2 hp, hf⟩
  · rw [readFrom?_start_eq_none hs h]
    constructor
    · intro hfalse
      cases hfalse
    · intro ⟨hw, k, hp, _⟩
      exact (h ⟨hw, k, hp⟩).elim

theorem exists_ofNfa?_eq (A : Alphabet) (hs : m.start? = some s) :
    ∃ log, ofNfa? A m = some ⟨(explore m A.toList s).toDfa m A.toList, log⟩ := by
  rw [ofNfa?_eq, hs]
  exact ⟨_, rfl⟩

/-- The words over the alphabet that the automaton spells are accepted. -/
theorem accepts_ofNfa? {A : Alphabet} {d : Logged Dfa} (hd : ofNfa? A m = some d)
    (w : List Char) :
    d.value.accepts w = true ↔ (∀ c ∈ w, A.contains c = true) ∧ m.Spells w := by
  cases hs : m.start? with
  | none => simp [ofNfa?_eq, hs] at hd
  | some s =>
    obtain ⟨log, hd'⟩ := exists_ofNfa?_eq A hs
    obtain rfl := Option.some.inj (hd.symm.trans hd')
    simp only [accepts_explore hs, Alphabet.contains, List.contains_iff_mem, Nfa.Spells, hs]
    refine and_congr_right fun _ => ?_
    constructor
    · intro ⟨k, hp, hf⟩
      exact ⟨s, k, rfl, hp, hf⟩
    · intro ⟨i, k, hi, hp, hf⟩
      obtain rfl := Option.some.inj hi
      exact ⟨k, hp, hf⟩

/-- Subsets stand for exactly the ends of the paths that spell the word read: whatever edges `m`
has, and whether or not it was built over this alphabet. -/
theorem exists_ofNfa?_reading (A : Alphabet) (m : Nfa) (s : Nat) (hs : m.start? = some s) :
    ∃ d, ofNfa? A m = some d ∧ ∀ w : List Char,
      ((∀ c ∈ w, A.contains c = true) → (∃ i, m.Path s w i) →
        ∃ q ∈ d.value.states, d.value.readFrom? d.value.start w = some q.id ∧
          d.value.state? q.id = some q ∧ (∀ i, i ∈ q.origin ↔ m.Path s w i) ∧
          ∀ q' ∈ d.value.states, (∀ i, i ∈ q'.origin ↔ m.Path s w i) → q' = q) ∧
      (¬ ((∀ c ∈ w, A.contains c = true) ∧ ∃ i, m.Path s w i) →
        d.value.readFrom? d.value.start w = none) ∧
      (d.value.accepts w = true ↔
        (∀ c ∈ w, A.contains c = true) ∧ ∃ i, m.Path s w i ∧ m.isFinal i = true) := by
  obtain ⟨log, hd⟩ := exists_ofNfa?_eq A hs
  refine ⟨_, hd, fun w => ?_⟩
  simp only [Alphabet.contains, List.contains_iff_mem]
  refine ⟨?_, readFrom?_start_eq_none hs, accepts_explore hs w⟩
  intro hw hp
  obtain ⟨q, hq, hread, hstate, horigin, _⟩ := exists_state_reached hs hw hp
  refine ⟨q, hq, hread, hstate, horigin, fun q' hq' horigin' => ?_⟩
  refine eq_of_origin_eq hs hq' hq (IdSet.ext fun i => ?_)
  rw [horigin, horigin']

def twins : Nfa where
  states := .ofList
    [⟨0, true, false, [⟨.epsilon, 1⟩]⟩, ⟨1, false, true, [⟨.epsilon, 0⟩, ⟨.symbol 'b', 5⟩]⟩]
  entry := 0
  exit := 1

theorem exists_ofNfa?_twins : twins.start? = some 0 ∧ ∃ d,
    ofNfa? (Alphabet.empty.extend ['b']) twins = some d ∧
    (∃ q ∈ d.value.states, d.value.readFrom? d.value.start ['b'] = some q.id ∧
      ∀ i, i ∈ q.origin ↔ twins.Path 0 ['b'] i) ∧
    d.value.readFrom? d.value.start ['c'] = none ∧
    (d.value.accepts ['b'] = true ↔ (∀ c ∈ ['b'], (Alphabet.empty.extend ['b']).contains c = true) ∧
      ∃ i, twins.Path 0 ['b'] i ∧ twins.isFinal i = true) := by
  have hs : twins.start? = some 0 := by decide
  have hb : ∀ c ∈ ['b'], (Alphabet.empty.extend ['b']).contains c = true :=
    List.forall_mem_singleton.2 (by decide)
  have hc : ¬ ∀ c ∈ ['c'], (Alphabet.empty.extend ['b']).contains c = true :=
    mt List.forall_mem_singleton.1 (by decide)
  have hp : twins.Path 0 ['b'] 5 :=
    .epsilon (j := 1) (by decide) (.symbol (j := 5) (by decide) (.stay 5))
  obtain ⟨d, hd, h⟩ := exists_ofNfa?_reading (.extend .empty ['b']) twins 0 hs
  obtain ⟨q, hq, hread, _, horigin, _⟩ := (h ['b']).1 hb ⟨5, hp⟩
  exact ⟨hs, d, hd, ⟨q, hq, hread, horigin⟩, (h ['c']).2.1 fun hw => hc hw.1, (h ['b']).2.2⟩

end Dfa
end RegexAutomata
