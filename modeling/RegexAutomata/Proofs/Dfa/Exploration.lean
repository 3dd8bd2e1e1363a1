import Mathlib.Data.List.Sublists
import Mathlib.Data.List.Nodup
import RegexAutomata.Dfa.Subset
import RegexAutomata.Nfa.Path

/-! The subset construction without a table and a queue. An exploration keeps the subsets in the order
in which they are met, which is the order in which they are surveyed. Subsets are met once, a row
holds the numbers of exactly the successors, and when the rounds are over no subset waits for its
row. -/
namespace RegexAutomata

namespace Nfa
variable {m : Nfa} {i j : Nat} {l : Label} {S T : IdSet} {c : Char}

theorem mem_advance : j ∈ m.advance S c ↔ ∃ i ∈ S, j ∈ m.targetsOf (.symbol c) i := mem_targets

theorem read_mem_ids (h : j ∈ m.read S c) : j ∈ m.ids := by
  refine epsilonClosure_subset (P := fun i => i ∈ m.ids) ?_ ?_ h
  · intro i hi
    obtain ⟨k, _, hk⟩ := mem_advance.1 hi
    exact target_mem_ids hk
  · intro i _ k hk
    exact target_mem_ids hk

theorem successor?_eq_some :
    m.successor? S c = some T ↔ (∃ i, i ∈ m.advance S c) ∧ m.read S c = T := by
  have hex : (m.advance S c).isEmpty = false ↔ ∃ i, i ∈ m.advance S c := by
    rw [← Bool.not_eq_true, IdSet.isEmpty_iff]
    exact Classical.not_forall_not
  rw [successor?]
  cases h : (m.advance S c).isEmpty with
  | true => simp [← hex, h]
  | false => simp [← hex, h]

theorem successor?_eq_none : m.successor? S c = none ↔ ∀ i, ¬ i ∈ m.advance S c := by
  rw [← IdSet.isEmpty_iff, successor?]
  cases (m.advance S c).isEmpty <;> simp

end Nfa

namespace Dfa

/-- The subsets met so far in the order of their numbers, and the transitions of the first ones. -/
structure Exploration where
  found : List IdSet
  rows : List (List (Char × Nat))
  log : List Log.Event

namespace Exploration

structure Survey where
  found : List IdSet
  row : List (Char × Nat)
  log : List Log.Event

def meet (found : List IdSet) (T : IdSet) : List IdSet :=
  if found.contains T then found else found ++ [T]

def stepLog (found : List IdSet) (source : Nat) (c : Char) (T : IdSet) : List Log.Event :=
  (if found.contains T then [] else [.discovered (found.idxOf T) T]) ++
    [.moved source c (found.idxOf T)]

def survey (m : Nfa) (source : Nat) (subset : IdSet) (found : List IdSet) : List Char → Survey
  | [] => ⟨found, [], []⟩
  | c :: rest =>
    match m.successor? subset c with
    | none => survey m source subset found rest
    | some target =>
      let s := survey m source subset (meet found target) rest
      ⟨s.found, (c, found.idxOf target) :: s.row, stepLog found source c target ++ s.log⟩

def start (subset : IdSet) : Exploration := ⟨[subset], [], [.discovered 0 subset]⟩

def next? (e : Exploration) : Option IdSet := e.found[e.rows.length]?

def follow (m : Nfa) (symbols : List Char) (e : Exploration) (subset : IdSet) : Exploration :=
  let s := survey m e.rows.length subset e.found symbols
  ⟨s.found, e.rows ++ [s.row], e.log ++ s.log⟩

def run (m : Nfa) (symbols : List Char) : Nat → Exploration → Exploration
  | 0, e => e
  | rounds + 1, e =>
    match e.next? with
    | none => e
    | some subset => run m symbols rounds (e.follow m symbols subset)

end Exploration

def explore (m : Nfa) (symbols : List Char) (start : Nat) : Exploration :=
  (Exploration.start (m.epsilonClosure (.ofList [start]))).run m symbols (Nat.pow 2 m.ids.size)

namespace Exploration
variable {m : Nfa} {symbols : List Char} {found : List IdSet} {S T : IdSet} {source : Nat}

def rowOf (m : Nfa) (symbols : List Char) (found : List IdSet) (S : IdSet) : List (Char × Nat) :=
  symbols.filterMap fun c => (m.successor? S c).map fun T => (c, found.idxOf T)

def Settled (m : Nfa) (symbols : List Char) (found : List IdSet) (S : IdSet) : Prop :=
  ∀ c ∈ symbols, ∀ T, m.successor? S c = some T → T ∈ found

theorem Settled.append (h : Settled m symbols found S) (new : List IdSet) :
    Settled m symbols (found ++ new) S :=
  fun c hc T hT => List.mem_append_left new (h c hc T hT)

theorem rowOf_append (h : Settled m symbols found S) (new : List IdSet) :
    rowOf m symbols (found ++ new) S = rowOf m symbols found S := by
  refine List.filterMap_congr fun c hc => ?_
  cases hT : m.successor? S c with
  | none => rfl
  | some T => simp [List.idxOf_append_of_mem (h c hc T hT)]

theorem lookup_rowOf (m : Nfa) (symbols : List Char) (found : List IdSet) (S : IdSet) (c : Char) :
    (rowOf m symbols found S).lookup c =
      if c ∈ symbols then (m.successor? S c).map found.idxOf else none := by
  induction symbols with
  | nil => rfl
  | cons d symbols ih =>
    rw [rowOf, List.filterMap_cons]
    by_cases hcd : c = d
    · subst hcd
      cases hT : m.successor? S c with
      | none =>
        simp only [rowOf, hT, Option.map_none, ite_self] at ih ⊢
        exact ih
      | some T => simp
    · have hdc : (c == d) = false := by simp [hcd]
      cases hT : m.successor? S d with
      | none => simpa [rowOf, hcd] using ih
      | some T => simpa [rowOf, hcd, List.lookup_cons, hdc] using ih

theorem prefix_meet (found : List IdSet) (T : IdSet) : found <+: meet found T := by
  by_cases h : T ∈ found <;> simp [meet, h]

theorem mem_meet : S ∈ meet found T ↔ S ∈ found ∨ S = T := by
  by_cases h : T ∈ found
  · simp only [meet, List.contains_iff_mem.2 h, if_true]
    exact ⟨.inl, fun hS => hS.elim id fun he => he ▸ h⟩
  · simp [meet, h]

theorem nodup_meet (h : found.Nodup) : (meet found T).Nodup := by
  by_cases hT : T ∈ found
  · simpa [meet, hT] using h
  · simp only [meet, List.contains_iff_mem, hT, if_false]
    refine List.nodup_append.2 ⟨h, List.nodup_singleton T, ?_⟩
    intro S hS U hU he
    exact hT (List.mem_singleton.1 hU ▸ he ▸ hS)

theorem idxOf_meet (found : List IdSet) (T : IdSet) :
    (meet found T).idxOf T = found.idxOf T := by
  by_cases h : T ∈ found
  · simp [meet, h]
  · simp [meet, h, List.idxOf_append_of_notMem, List.idxOf_of_notMem]

theorem survey_of_none {c : Char} (h : m.successor? S c = none) :
    survey m source S found (c :: symbols) = survey m source S found symbols := by
  simp [survey, h]

theorem survey_found_of_some {c : Char} (h : m.successor? S c = some T) :
    (survey m source S found (c :: symbols)).found =
      (survey m source S (meet found T) symbols).found := by
  simp [survey, h]

theorem survey_row_of_some {c : Char} (h : m.successor? S c = some T) :
    (survey m source S found (c :: symbols)).row =
      (c, found.idxOf T) :: (survey m source S (meet found T) symbols).row := by
  simp [survey, h]

theorem survey_log_of_some {c : Char} (h : m.successor? S c = some T) :
    (survey m source S found (c :: symbols)).log =
      stepLog found source c T ++ (survey m source S (meet found T) symbols).log := by
  simp [survey, h]

theorem prefix_survey (m : Nfa) (source : Nat) (S : IdSet) (symbols : List Char)
    (found : List IdSet) : found <+: (survey m source S found symbols).found := by
  induction symbols generalizing found with
  | nil => exact List.prefix_refl found
  | cons c symbols ih =>
    cases h : m.successor? S c with
    | none => simpa [survey_of_none h] using ih found
    | some T =>
      rw [survey_found_of_some h]
      exact (prefix_meet found T).trans (ih (meet found T))

theorem mem_survey : T ∈ (survey m source S found symbols).found ↔
    T ∈ found ∨ ∃ c ∈ symbols, m.successor? S c = some T := by
  induction symbols generalizing found with
  | nil => simp [survey]
  | cons c symbols ih =>
    cases h : m.successor? S c with
    | none => rw [survey_of_none h, ih]; simp [h]
    | some U =>
      rw [survey_found_of_some h, ih, mem_meet]
      simp [h, or_assoc, eq_comm]

theorem nodup_survey (h : found.Nodup) : (survey m source S found symbols).found.Nodup := by
  induction symbols generalizing found with
  | nil => exact h
  | cons c symbols ih =>
    cases hc : m.successor? S c with
    | none => simpa [survey_of_none hc] using ih h
    | some T => simpa [survey_found_of_some hc] using ih (nodup_meet h)

theorem survey_row (m : Nfa) (source : Nat) (S : IdSet) (symbols : List Char)
    (found : List IdSet) :
    (survey m source S found symbols).row =
      rowOf m symbols (survey m source S found symbols).found S := by
  induction symbols generalizing found with
  | nil => rfl
  | cons c symbols ih =>
    cases h : m.successor? S c with
    | none => simpa [survey_of_none h, rowOf, h] using ih found
    | some T =>
      obtain ⟨new, hnew⟩ := prefix_survey m source S symbols (meet found T)
      have hT : T ∈ meet found T := mem_meet.2 (.inr rfl)
      have hid : (survey m source S (meet found T) symbols).found.idxOf T = found.idxOf T := by
        rw [← hnew, List.idxOf_append_of_mem hT, idxOf_meet]
      rw [survey_row_of_some h, survey_found_of_some h, ih (meet found T)]
      simp only [rowOf, List.filterMap_cons, h, Option.map_some, hid]

structure Sound (m : Nfa) (symbols : List Char) (seed : IdSet) (e : Exploration) : Prop where
  first : e.found[0]? = some seed
  distinct : e.found.Nodup
  inside : ∀ S ∈ e.found, ∀ i ∈ S, i ∈ m.ids
  le : e.rows.length ≤ e.found.length
  settled : ∀ S ∈ e.found.take e.rows.length, Settled m symbols e.found S
  rows_eq : e.rows = (e.found.take e.rows.length).map (rowOf m symbols e.found)

variable {seed : IdSet} {e : Exploration}

theorem sound_start (h : ∀ i ∈ seed, i ∈ m.ids) : Sound m symbols seed (start seed) where
  first := rfl
  distinct := List.nodup_singleton seed
  inside := by
    intro S hS
    rw [List.mem_singleton.1 hS]
    exact h
  le := Nat.zero_le _
  settled := by
    intro S hS
    simp [start] at hS
  rows_eq := rfl

/-- A survey adds subsets behind those met before, and the row of the subset surveyed. -/
theorem Sound.follow (h : Sound m symbols seed e) (hS : e.next? = some S) :
    Sound m symbols seed (e.follow m symbols S) := by
  obtain ⟨new, hnew⟩ := prefix_survey m e.rows.length S symbols e.found
  have hlt : e.rows.length < e.found.length := (List.getElem?_eq_some_iff.1 hS).1
  have hfound : (e.follow m symbols S).found = e.found ++ new := hnew.symm
  have hrows : (e.follow m symbols S).rows = e.rows ++ [rowOf m symbols (e.found ++ new) S] := by
    rw [Exploration.follow, survey_row, ← hnew]
  have htake : (e.found ++ new).take (e.rows.length + 1) = e.found.take e.rows.length ++ [S] := by
    rw [List.take_append_of_le_length hlt, List.take_add_one,
      show e.found[e.rows.length]? = _ from hS]
    rfl
  have hnext : Settled m symbols (e.found ++ new) S := by
    intro c hc T hT
    rw [hnew]
    exact mem_survey.2 (.inr ⟨c, hc, hT⟩)
  refine ⟨?_, ?_, ?_, ?_, ?_, ?_⟩
  · rw [hfound, List.getElem?_append_left (Nat.zero_lt_of_lt hlt)]
    exact h.first
  · exact nodup_survey h.distinct
  · intro T hT i hi
    cases mem_survey.1 hT with
    | inl hmem => exact h.inside T hmem i hi
    | inr hex =>
      obtain ⟨c, _, hc⟩ := hex
      exact Nfa.read_mem_ids ((Nfa.successor?_eq_some.1 hc).2 ▸ hi)
  · rw [hfound, hrows, List.length_append, List.length_append, List.length_singleton]
    omega
  · intro T hT
    rw [hfound, hrows, List.length_append, List.length_singleton, htake] at hT
    rw [hfound]
    cases List.mem_append.1 hT with
    | inl hmem => exact (h.settled T hmem).append new
    | inr heq => exact List.mem_singleton.1 heq ▸ hnext
  · rw [hfound, hrows, List.length_append, List.length_singleton, htake, List.map_append]
    have hold : (e.found.take e.rows.length).map (rowOf m symbols (e.found ++ new)) = e.rows := by
      rw [List.map_congr_left fun T hT => rowOf_append (h.settled T hT) new]
      exact h.rows_eq.symm
    rw [hold]
    rfl

/-- What holds at first and is kept by every survey holds of a run, whatever its rounds. -/
theorem run_induction {P : Exploration → Prop}
    (hfollow : ∀ e S, e.next? = some S → P e → P (e.follow m symbols S)) (h : P e)
    (rounds : Nat) : P (e.run m symbols rounds) := by
  induction rounds generalizing e with
  | zero => exact h
  | succ rounds ih =>
    cases hS : e.next? with
    | none => simpa only [Exploration.run, hS] using h
    | some S => simpa only [Exploration.run, hS] using ih (hfollow e S hS h)

theorem Sound.run (h : Sound m symbols seed e) (rounds : Nat) :
    Sound m symbols seed (e.run m symbols rounds) :=
  run_induction (fun _ _ hS h => h.follow hS) h rounds

/-- Sets of ids of one automaton are as many as the sublists of its ids, at most. -/
theorem length_le_of_inside (hd : found.Nodup) (h : ∀ S ∈ found, ∀ i ∈ S, i ∈ m.ids) :
    found.length ≤ Nat.pow 2 m.ids.size := by
  have hsub : ∀ S ∈ found, S.toList ∈ m.ids.toList.sublists := by
    intro S hS
    have hfilter : m.ids.filter (fun i => decide (i ∈ S)) = S := by
      refine IdSet.ext fun i => ?_
      rw [Keyed.mem_filter, decide_eq_true_iff]
      exact ⟨And.right, fun hi => ⟨h S hS i hi, hi⟩⟩
    rw [List.mem_sublists, ← hfilter]
    exact List.filter_sublist
  have hmap : (found.map Keyed.toList).Nodup :=
    hd.map fun S T hST => Keyed.toList_inj.1 hST
  have hperm : (found.map Keyed.toList).Subperm m.ids.toList.sublists := by
    refine hmap.subperm fun l hl => ?_
    obtain ⟨S, hS, rfl⟩ := List.mem_map.1 hl
    exact hsub S hS
  simpa [Keyed.size] using hperm.length_le

/-- A round either surveys one more subset or finds that none waits. -/
theorem run_rows (h : Sound m symbols seed e) (rounds : Nat) :
    (e.run m symbols rounds).rows.length = (e.run m symbols rounds).found.length ∨
      (e.run m symbols rounds).rows.length = e.rows.length + rounds := by
  induction rounds generalizing e with
  | zero => exact .inr rfl
  | succ rounds ih =>
    cases hS : e.next? with
    | none =>
      have hle : e.found.length ≤ e.rows.length := List.getElem?_eq_none_iff.1 hS
      refine .inl ?_
      simpa [Exploration.run, hS] using Nat.le_antisymm h.le hle
    | some S =>
      have hlen : (e.follow m symbols S).rows.length = e.rows.length + 1 := by
        simp [Exploration.follow]
      have hrun := ih (h.follow hS)
      rw [hlen] at hrun
      simp only [Exploration.run, hS]
      omega

variable {s : Nat}

theorem start_inside (hs : m.start? = some s) {i : Nat} (h : i ∈ m.epsilonClosure (.ofList [s])) :
    i ∈ m.ids := by
  obtain ⟨q, hq, rfl⟩ := Option.map_eq_some_iff.1 hs
  have hid : q.id = m.entry := (Keyed.find?_eq_some_iff.1 hq).2
  refine Nfa.epsilonClosure_subset (P := fun i => i ∈ m.ids) ?_ ?_ h
  · intro k hk
    rw [List.mem_singleton.1 (IdSet.mem_ofList.1 hk), hid]
    exact Nfa.state_mem_ids hq
  · intro k _ j hj
    exact Nfa.target_mem_ids hj

theorem sound_explore (hs : m.start? = some s) :
    Sound m symbols (m.epsilonClosure (.ofList [s])) (explore m symbols s) :=
  (sound_start fun _ hi => start_inside hs hi).run _

/-- The bound on rounds cuts nothing off. -/
theorem rows_explore (hs : m.start? = some s) :
    (explore m symbols s).rows.length = (explore m symbols s).found.length := by
  have hsound : Sound m symbols _ (explore m symbols s) := sound_explore hs
  have hle := length_le_of_inside hsound.distinct hsound.inside
  have hstart : Sound m symbols _ _ := sound_start fun _ hi => start_inside hs hi
  cases run_rows hstart (Nat.pow 2 m.ids.size) with
  | inl h => exact h
  | inr h =>
    have hrows : (explore m symbols s).rows.length = Nat.pow 2 m.ids.size := by
      simpa [explore, start] using h
    have hge := hsound.le
    omega

/-- Every subset met has its row, and every successor of it has been met. -/
theorem rows_eq_map (hs : m.start? = some s) :
    (explore m symbols s).rows =
      (explore m symbols s).found.map (rowOf m symbols (explore m symbols s).found) := by
  have hsound : Sound m symbols _ (explore m symbols s) := sound_explore hs
  have hrows := hsound.rows_eq
  rwa [rows_explore hs, List.take_length] at hrows

theorem settled_explore (hs : m.start? = some s) (hS : S ∈ (explore m symbols s).found) :
    Settled m symbols (explore m symbols s).found S := by
  refine (sound_explore hs).settled S ?_
  rwa [rows_explore hs, List.take_length]

end Exploration
end Dfa
end RegexAutomata
