import RegexAutomata.Proofs.Dfa.Exploration

/-! The loop over a queue and the exploration do the same, round by round. The table of the loop has
an entry for every subset met, and the queue holds the numbers of those without a row. -/
namespace RegexAutomata.Dfa
variable {m : Nfa} {symbols : List Char} {found new : List IdSet} {S : IdSet}
  {e : Exploration} {rows : List (List (Char × Nat))} {row : List (Char × Nat)}

namespace Exploration

def stateOf (m : Nfa) (rows : List (List (Char × Nat))) (id : Nat) (subset : IdSet) : State :=
  match rows[id]? with
  | some row => ⟨id, id == 0, subset.toList.any m.isFinal, subset, row⟩
  | none => Worklist.blank id subset (id == 0)

def entryOf (m : Nfa) (rows : List (List (Char × Nat))) (id : Nat) (subset : IdSet) : Entry :=
  ⟨subset, stateOf m rows id subset⟩

def toDfa (m : Nfa) (symbols : List Char) (e : Exploration) : Dfa where
  alphabet := symbols
  start := 0
  entries := e.found.mapIdx (entryOf m e.rows)

theorem size_toDfa (m : Nfa) (symbols : List Char) (e : Exploration) :
    (e.toDfa m symbols).size = e.found.length := List.length_mapIdx

theorem stateOf_of_le {id : Nat} (h : rows.length ≤ id) (S : IdSet) :
    stateOf m rows id S = Worklist.blank id S (id == 0) := by
  rw [stateOf, List.getElem?_eq_none h]

/-- One more row changes no state but the one that it belongs to. -/
theorem entryOf_append {id : Nat} (h : rows.length ≠ id) (row : List (Char × Nat)) (S : IdSet) :
    entryOf m (rows ++ [row]) id S = entryOf m rows id S := by
  have hrow : (rows ++ [row])[id]? = rows[id]? := by
    by_cases hlt : id < rows.length
    · exact List.getElem?_append_left hlt
    · rw [List.getElem?_eq_none (by simp; omega), List.getElem?_eq_none (by omega)]
  rw [entryOf, entryOf, stateOf, stateOf, hrow]

/-- Only the first subset of all is marked as the start, and no new one is the first. -/
theorem mapIdx_blank (m : Nfa) (new : List IdSet) (h : rows.length < found.length) :
    (new.mapIdx fun k T => (⟨T, Worklist.blank (found.length + k) T false⟩ : Entry)) =
      new.mapIdx fun k => entryOf m rows (k + found.length) := by
  refine List.ext_getElem? fun k => ?_
  rw [List.getElem?_mapIdx, List.getElem?_mapIdx]
  refine Option.map_congr fun T _ => ?_
  have hpos : (k + found.length == 0) = false := by
    rw [beq_eq_false_iff_ne]
    omega
  rw [entryOf, stateOf_of_le (by omega), hpos, Nat.add_comm]

end Exploration

namespace Worklist
open Exploration
variable {w : Worklist} {log : List Log.Event}

/-- The worklist of an exploration: the subsets without a row wait in the queue. -/
def ofExploration (m : Nfa) (e : Exploration) : Worklist where
  entries := e.found.mapIdx (entryOf m e.rows)
  queue := List.range' e.rows.length (e.found.length - e.rows.length)
  log := e.log

def extend (w : Worklist) (new : List IdSet) (log : List Log.Event) : Worklist where
  entries := w.entries ++ new.mapIdx fun k T => ⟨T, blank (w.entries.length + k) T false⟩
  queue := w.queue ++ List.range' w.entries.length new.length
  log := w.log ++ log

section follow

theorem extend_note (w : Worklist) (x : Log.Event) (new : List IdSet) (log : List Log.Event) :
    (w.note x).extend new log = w.extend new (x :: log) := by
  simp [extend, note]

theorem extend_add (w : Worklist) (T : IdSet) (new : List IdSet) (log : List Log.Event) :
    (w.add T false).1.extend new log =
      w.extend (T :: new) (.discovered w.entries.length T :: log) := by
  simp [extend, add, List.mapIdx_cons, List.range'_succ, Nat.add_assoc, Nat.add_comm 1]

theorem key_add (hw : w.entries.map Entry.key = found) (T : IdSet) :
    (w.add T false).1.entries.map Entry.key = found ++ [T] := by
  simp [add, hw]

theorem number?_eq (hw : w.entries.map Entry.key = found) (T : IdSet) :
    w.number? T = if T ∈ found then some (found.idxOf T) else none := by
  have hmap : w.number? T = found.findIdx? (· == T) := by
    rw [← hw, List.findIdx?_map]
    rfl
  rw [hmap]
  by_cases hT : T ∈ found
  · rw [if_pos hT]
    exact List.findIdx?_eq_some_of_exists ⟨T, hT, beq_self_eq_true T⟩
  · rw [if_neg hT, List.findIdx?_eq_none_iff]
    exact fun U hU => beq_eq_false_iff_ne.2 fun h => hT (h ▸ hU)

theorem follow_of_some {source : Nat} {c : Char} {T : IdSet} (h : m.successor? S c = some T) :
    follow m source S w (c :: symbols) =
      ((follow m source S ((w.meet T).1.note (.moved source c (w.meet T).2)) symbols).1,
        (c, (w.meet T).2) ::
          (follow m source S ((w.meet T).1.note (.moved source c (w.meet T).2)) symbols).2) := by
  simp [follow, h]

/-- Following the transitions of a subset adds the subsets that a survey adds, and reports the
same. -/
theorem follow_eq (m : Nfa) (source : Nat) (S : IdSet) (symbols : List Char)
    (hw : w.entries.map Entry.key = found) :
    ∃ new, (survey m source S found symbols).found = found ++ new ∧
      follow m source S w symbols = (w.extend new (survey m source S found symbols).log,
        (survey m source S found symbols).row) := by
  induction symbols generalizing found w with
  | nil => exact ⟨[], (List.append_nil found).symm, by simp [follow, survey, extend]⟩
  | cons c symbols ih =>
    cases hT : m.successor? S c with
    | none =>
      obtain ⟨new, hfound, hfollow⟩ := ih hw
      refine ⟨new, ?_, ?_⟩
      · rw [survey_of_none hT, hfound]
      · rw [survey_of_none hT, ← hfollow]
        simp [follow, hT]
    | some T =>
      rw [survey_found_of_some hT, survey_row_of_some hT, survey_log_of_some hT, follow_of_some hT]
      by_cases hmem : T ∈ found
      · have hmeet : Exploration.meet found T = found := by simp [Exploration.meet, hmem]
        have hnumber : w.meet T = (w, found.idxOf T) := by simp [meet, number?_eq hw, hmem]
        have hnote : (w.note (.moved source c (found.idxOf T))).entries.map Entry.key = found := hw
        obtain ⟨new, hfound, hfollow⟩ := ih hnote
        refine ⟨new, by rw [hmeet, hfound], ?_⟩
        rw [hnumber, hmeet, hfollow, extend_note]
        simp [stepLog, hmem]
      · have hmeet : Exploration.meet found T = found ++ [T] := by simp [Exploration.meet, hmem]
        have hlength : w.entries.length = found.idxOf T := by
          rw [List.idxOf_of_notMem hmem, ← hw, List.length_map]
        have hnumber : w.meet T = ((w.add T false).1, found.idxOf T) := by
          simp [meet, number?_eq hw, hmem, add, hlength]
        obtain ⟨new, hfound, hfollow⟩ :=
          ih (w := (w.add T false).1.note (.moved source c (found.idxOf T))) (key_add hw T)
        refine ⟨T :: new, by rw [hmeet, hfound]; simp, ?_⟩
        rw [hnumber, hmeet, hfollow, extend_note, extend_add, hlength]
        simp [stepLog, hmem]

end follow

section round

theorem key_ofExploration (m : Nfa) (e : Exploration) :
    (ofExploration m e).entries.map Entry.key = e.found := by
  refine List.ext_getElem? fun i => ?_
  simp [ofExploration, entryOf, Function.comp_def]

/-- The row of one more subset fills in one state. -/
theorem set_entryOf (hS : found[rows.length]? = some S) :
    (found.mapIdx (entryOf m rows) ++
        new.mapIdx fun k T => (⟨T, blank (found.length + k) T false⟩ : Entry)).set rows.length
          ⟨S, rows.length, rows.length == 0, S.toList.any m.isFinal, S, row⟩ =
      (found ++ new).mapIdx (entryOf m (rows ++ [row])) := by
  have hlt : rows.length < found.length := (List.getElem?_eq_some_iff.1 hS).1
  rw [mapIdx_blank m new hlt, ← List.mapIdx_append]
  refine List.ext_getElem? fun i => ?_
  rw [List.getElem?_set, List.getElem?_mapIdx, List.getElem?_mapIdx]
  by_cases hi : rows.length = i
  · have hfound : (found ++ new)[i]? = some S := by
      rw [← hi, List.getElem?_append_left hlt, hS]
    rw [if_pos hi, hfound]
    simp [entryOf, stateOf, ← hi, Nat.lt_add_right _ hlt]
  · rw [if_neg hi]
    exact Option.map_congr fun T _ => (entryOf_append hi row T).symm

theorem round?_eq_filled {w' : Worklist} {id : Nat} {queue : List Nat} {x x' : Entry}
    (hqueue : w.queue = id :: queue) (hx : w.entries[id]? = some x)
    (hfollow : follow m id x.key ⟨w.entries, queue, w.log⟩ symbols = (w', row))
    (hx' : w'.entries[id]? = some x') :
    w.round? m symbols = some (.filled id,
      ⟨w'.entries.set id ⟨x'.key, x'.state.id, x'.state.isStart, x.key.toList.any m.isFinal,
        x'.state.origin, row⟩, w'.queue, w'.log⟩) := by
  simp only [round?, hqueue, hx, hfollow, hx']

theorem queue_ofExploration (h : e.rows.length < e.found.length) :
    (ofExploration m e).queue = e.rows.length ::
      List.range' (e.rows.length + 1) (e.found.length - (e.rows.length + 1)) := by
  rw [← List.range'_succ, ofExploration, ← Nat.sub_sub, Nat.sub_add_cancel (Nat.sub_pos_of_lt h)]

theorem getElem?_ofExploration (hS : e.next? = some S) :
    (ofExploration m e).entries[e.rows.length]? =
      some ⟨S, blank e.rows.length S (e.rows.length == 0)⟩ := by
  rw [ofExploration, List.getElem?_mapIdx, show e.found[e.rows.length]? = some S from hS,
    Option.map_some, entryOf, stateOf_of_le (Nat.le_refl _)]

/-- What waits behind the number `i`, when `n` numbers become `n + k`. -/
theorem range'_waiting {i n : Nat} (h : i < n) (k : Nat) :
    List.range' (i + 1) (n - (i + 1)) ++ List.range' n k =
      List.range' (i + 1) (n + k - (i + 1)) := by
  have hend : i + 1 + (n - (i + 1)) = n := Nat.add_sub_cancel' h
  have happend := List.range'_append_1 (s := i + 1) (m := n - (i + 1)) (n := k)
  rw [hend] at happend
  rw [happend, Nat.sub_add_comm h]

/-- A round takes the first subset without a row and fills in its state. -/
theorem round?_ofExploration (hS : e.next? = some S) :
    (ofExploration m e).round? m symbols =
      some (.filled e.rows.length, ofExploration m (e.follow m symbols S)) := by
  have hlt : e.rows.length < e.found.length := (List.getElem?_eq_some_iff.1 hS).1
  have hlength : (ofExploration m e).entries.length = e.found.length := List.length_mapIdx
  let waiting := List.range' (e.rows.length + 1) (e.found.length - (e.rows.length + 1))
  let s := survey m e.rows.length S e.found symbols
  obtain ⟨new, hfound, hfollow⟩ := follow_eq m e.rows.length S symbols
    (w := ⟨(ofExploration m e).entries, waiting, e.log⟩) (key_ofExploration m e)
  have hentry : (extend ⟨(ofExploration m e).entries, waiting, e.log⟩ new s.log).entries[
      e.rows.length]? = some ⟨S, blank e.rows.length S (e.rows.length == 0)⟩ :=
    (List.getElem?_append_left (hlength ▸ hlt)).trans (getElem?_ofExploration hS)
  have hnext : ofExploration m (e.follow m symbols S) =
      ⟨(e.found ++ new).mapIdx (entryOf m (e.rows ++ [s.row])),
        waiting ++ List.range' e.found.length new.length, e.log ++ s.log⟩ := by
    simp only [ofExploration, Exploration.follow, hfound, waiting, range'_waiting hlt,
      List.length_append, List.length_singleton, s]
  rw [round?_eq_filled (queue_ofExploration hlt) (getElem?_ofExploration hS) hfollow hentry, hnext,
    ← set_entryOf hS, extend, hlength]
  rfl

/-- The queue is empty exactly when every subset has its row. -/
theorem round?_eq_none (h : e.next? = none) : (ofExploration m e).round? m symbols = none := by
  have hle : e.found.length ≤ e.rows.length := List.getElem?_eq_none_iff.1 h
  simp [round?, ofExploration, Nat.sub_eq_zero_of_le hle]

end round

theorem run_ofExploration (rounds : Nat) :
    (ofExploration m e).run m symbols rounds = ofExploration m (e.run m symbols rounds) := by
  induction rounds generalizing e with
  | zero => rfl
  | succ rounds ih =>
    rw [run, Exploration.run]
    cases hS : e.next? with
    | none => rw [round?_eq_none hS]
    | some S => rw [round?_ofExploration hS, ← ih]

/-- The loop begins where the exploration begins, and gives the first subset the number 0. -/
theorem add_empty (m : Nfa) (seed : IdSet) :
    empty.add seed true = (ofExploration m (Exploration.start seed), 0) := rfl

end Worklist

theorem ofNfa?_eq (A : Alphabet) (m : Nfa) : ofNfa? A m = m.start?.map fun s =>
    let d := (explore m A.toList s).toDfa m A.toList
    ⟨d, (explore m A.toList s).log ++ [.determinized m.size d.size d.finals.length]⟩ := by
  rw [ofNfa?]
  refine Option.map_congr fun s _ => ?_
  simp only [Worklist.add_empty m, Worklist.run_ofExploration]
  rfl

end RegexAutomata.Dfa
