import RegexAutomata.Dfa.Table
import RegexAutomata.Nfa.Thompson
import RegexAutomata.Proofs.Dfa.Layout

/-! The transition table tells everything about its automaton but the sets that the states stand for,
whatever characters are symbols: the bar that closes a column may be one as well. As long as the
numbers fit into their columns, the bars of all lines stand in the same places. -/
namespace RegexAutomata.Dfa
namespace Table
variable {d d' : Dfa} {q q' : State} {t t' r r' : List Char} {ts ts' : List (List Char)}

structure Word (t : List Char) : Prop where
  ne_nil : t ≠ []
  solid : ∀ c ∈ t, isWhiteSpace c = false

theorem Word.not_mem (h : Word t) {c : Char} (hc : isWhiteSpace c = true) : c ∉ t := by
  intro hmem
  rw [h.solid c hmem] at hc
  cases hc

theorem word_decimal (n : Nat) : Word (decimal n) where
  ne_nil := Nat.toDigits_ne_nil
  solid := fun _ hc => isWhiteSpace_eq_false_of_isDigit (isDigit_of_mem_decimal hc)

theorem word_entry (target : Option Nat) : Word (entry target) := by
  cases target with
  | some target => exact word_decimal target
  | none => exact ⟨List.cons_ne_nil _ _, List.forall_mem_singleton.2 (by decide)⟩

theorem word_stateLabel (q : State) : Word (stateLabel q) := by
  have hid := word_decimal q.id
  unfold stateLabel
  split
  · exact ⟨List.cons_ne_nil _ _, List.forall_mem_cons.2 ⟨by decide, hid.solid⟩⟩
  · exact hid

section lines

def firstWord (t : List Char) : List Char := (t.dropWhile (· == ' ')).takeWhile (· != ' ')

theorem firstWord_cell_append (h : Word t) (r : List Char) : firstWord (cell t ++ r) = t := by
  obtain ⟨c, u, rfl⟩ := List.exists_cons_of_ne_nil h.ne_nil
  have hspace : ∀ x ∈ c :: u, x ≠ ' ' := by
    rintro x hx rfl
    exact h.not_mem (by decide) hx
  have hdrop : (cell (c :: u) ++ r).dropWhile (· == ' ') = (c :: u) ++ ' ' :: '|' :: r := by
    have hpad : ∀ x ∈ List.replicate (width - (c :: u).length) ' ', (x == ' ') = true := by
      intro x hx
      rw [(List.mem_replicate.1 hx).2]
      rfl
    rw [cell, List.leftpad, List.append_assoc, List.append_assoc, List.dropWhile_append_of_pos hpad]
    exact List.dropWhile_cons_of_neg (by simp [hspace c List.mem_cons_self])
  have htake : ∀ x ∈ c :: u, (x != ' ') = true := fun x hx => bne_iff_ne.2 (hspace x hx)
  rw [firstWord, hdrop, List.takeWhile_append_of_pos htake]
  exact List.append_nil _

/-- A cell ends where its word says, even where it is wider than its column. -/
theorem cell_append_inj (ht : Word t) (ht' : Word t') (h : cell t ++ r = cell t' ++ r') :
    t = t' ∧ r = r' := by
  obtain rfl : t = t' := by
    rw [← firstWord_cell_append ht r, h, firstWord_cell_append ht' r']
  exact ⟨rfl, List.append_cancel_left h⟩

theorem flatMap_cell_inj (hts : ∀ u ∈ ts, Word u) (hts' : ∀ u ∈ ts', Word u)
    (h : ts.flatMap (fun u => ' ' :: cell u) = ts'.flatMap fun u => ' ' :: cell u) : ts = ts' := by
  induction ts generalizing ts' with
  | nil =>
    cases ts' with
    | nil => rfl
    | cons u' us' => cases h
  | cons u us ih =>
    cases ts' with
    | nil => cases h
    | cons u' us' =>
      obtain ⟨hu, hus⟩ := List.forall_mem_cons.1 hts
      obtain ⟨hu', hus'⟩ := List.forall_mem_cons.1 hts'
      obtain ⟨rfl, hrest⟩ := cell_append_inj hu hu' (List.cons.inj h).2
      rw [ih hus hus' hrest]

theorem line_inj (ht : Word t) (ht' : Word t') (hts : ∀ u ∈ ts, Word u) (hts' : ∀ u ∈ ts', Word u)
    (h : line t ts = line t' ts') : t = t' ∧ ts = ts' := by
  obtain ⟨rfl, hcells⟩ := cell_append_inj ht ht' h
  exact ⟨rfl, flatMap_cell_inj hts hts' hcells⟩

theorem not_mem_cell (h : Word t) : '\n' ∉ cell t := by
  have ht : '\n' ∉ t := h.not_mem (by decide)
  simp [cell, List.leftpad, ht]

theorem not_mem_line (ht : Word t) (hts : ∀ u ∈ ts, Word u) : '\n' ∉ line t ts := by
  rw [line, List.mem_append, List.mem_flatMap, not_or]
  refine ⟨not_mem_cell ht, ?_⟩
  rintro ⟨u, hu, hmem⟩
  obtain hmem | hmem := List.mem_cons.1 hmem
  · cases hmem
  · exact not_mem_cell (hts u hu) hmem

end lines

theorem stateLabel_inj (h : stateLabel q = stateLabel q') :
    q.id = q'.id ∧ q.isFinal = q'.isFinal := by
  have hstar (n : Nat) : '*' ∉ decimal n := by
    intro hmem
    have hdigit : Char.isDigit '*' = true := isDigit_of_mem_decimal hmem
    cases hdigit
  unfold stateLabel at h
  split at h <;> split at h
  · exact ⟨decimal_inj.1 (List.cons.inj h).2, by simp_all⟩
  · exact (hstar q'.id (h ▸ List.mem_cons_self)).elim
  · exact (hstar q.id (h ▸ List.mem_cons_self)).elim
  · exact ⟨decimal_inj.1 h, by simp_all⟩

theorem entry_inj {target target' : Option Nat} (h : entry target = entry target') :
    target = target' := by
  have hdash (n : Nat) : decimal n ≠ ['-'] := by
    intro hn
    have hdigit : Char.isDigit '-' = true :=
      isDigit_of_mem_decimal (n := n) (hn ▸ List.mem_singleton_self _)
    cases hdigit
  cases target with
  | none =>
    cases target' with
    | none => rfl
    | some n => exact (hdash n h.symm).elim
  | some n =>
    cases target' with
    | none => exact (hdash n h).elim
    | some n' => exact congrArg some (decimal_inj.1 h)

theorem word_stateEntries (d : Dfa) (q : State) :
    ∀ u ∈ d.alphabet.map fun c => entry (d.next? q.id c), Word u :=
  List.forall_mem_map.2 fun _ _ => word_entry _

theorem stateLine_inj (halphabet : d.alphabet = d'.alphabet)
    (h : stateLine d q = stateLine d' q') : q.id = q'.id ∧ q.isFinal = q'.isFinal ∧
      ∀ c ∈ d.alphabet, d.next? q.id c = d'.next? q'.id c := by
  obtain ⟨hlabel, hentries⟩ := line_inj (word_stateLabel q) (word_stateLabel q')
    (word_stateEntries d q) (word_stateEntries d' q') h
  rw [← halphabet] at hentries
  obtain ⟨hid, hfinal⟩ := stateLabel_inj hlabel
  exact ⟨hid, hfinal, fun c hc => entry_inj (List.map_eq_map_iff.1 hentries c hc)⟩

section bars
variable {bar : Char} {k : Nat} {l : List Char} {columns : List (List Char)}

/-- A line with `k` columns behind the first one, each of them closed by the bar. -/
def Ruled (bar : Char) (k : Nat) (l : List Char) : Prop :=
  l.length = width + 2 + k * (width + 3) ∧ ∀ i ≤ k, l[width + 1 + i * (width + 3)]? = some bar

theorem ruled_zero (hlength : l.length = width + 2) (hbar : l[width + 1]? = some bar) :
    Ruled bar 0 l := by
  refine ⟨by rw [hlength, Nat.zero_mul, Nat.add_zero], fun i hi => ?_⟩
  rwa [Nat.le_zero.1 hi, Nat.zero_mul, Nat.add_zero]

/-- One more column, with the blank in front of it. -/
theorem Ruled.column {u : List Char} (h : Ruled bar k l) (hlength : u.length = width + 3)
    (hbar : u[width + 2]? = some bar) : Ruled bar (k + 1) (l ++ u) := by
  obtain ⟨hl, hbars⟩ := h
  have hk : (k + 1) * (width + 3) = k * (width + 3) + (width + 3) := Nat.succ_mul k (width + 3)
  refine ⟨?_, fun i hi => ?_⟩
  · rw [List.length_append, hl, hlength]
    omega
  · obtain hi | rfl := Nat.le_succ_iff.1 hi
    · have hle : i * (width + 3) ≤ k * (width + 3) := Nat.mul_le_mul_right _ hi
      rw [List.getElem?_append_left (by omega)]
      exact hbars i hi
    · have hplace : width + 1 + (k + 1) * (width + 3) = l.length + (width + 2) := by omega
      rw [hplace, List.getElem?_append_right (Nat.le_add_right _ _), Nat.add_sub_cancel_left]
      exact hbar

theorem Ruled.append (h : Ruled bar k l)
    (hcolumns : ∀ u ∈ columns, u.length = width + 3 ∧ u[width + 2]? = some bar) :
    Ruled bar (k + columns.length) (l ++ columns.flatten) := by
  induction columns generalizing k l with
  | nil => simpa using h
  | cons u columns ih =>
    obtain ⟨⟨hlength, hbar⟩, hcolumns⟩ := List.forall_mem_cons.1 hcolumns
    rw [List.flatten_cons, ← List.append_assoc, List.length_cons, Nat.add_comm columns.length,
      ← Nat.add_assoc]
    exact ih (h.column hlength hbar) hcolumns

theorem length_cell (h : t.length ≤ width) : (cell t).length = width + 2 := by
  rw [cell, List.length_append, List.length_leftpad, Nat.max_eq_left h]
  rfl

theorem getElem?_cell (h : t.length ≤ width) : (cell t)[width + 1]? = some '|' := by
  have hpad : (t.leftpad width ' ').length = width := by
    rw [List.length_leftpad, Nat.max_eq_left h]
  rw [cell, List.getElem?_append_right (by rw [hpad]; exact Nat.le_succ width), hpad]
  rfl

theorem ruled_line (ht : t.length ≤ width) (hts : ∀ u ∈ ts, u.length ≤ width) :
    Ruled '|' ts.length (line t ts) := by
  have hfirst : Ruled '|' 0 (cell t) := ruled_zero (length_cell ht) (getElem?_cell ht)
  have hothers : ∀ u ∈ ts.map fun u => ' ' :: cell u,
      u.length = width + 3 ∧ u[width + 2]? = some '|' :=
    List.forall_mem_map.2 fun u hu =>
      ⟨congrArg (· + 1) (length_cell (hts u hu)), getElem?_cell (hts u hu)⟩
  have h := hfirst.append hothers
  rwa [List.length_map, Nat.zero_add, ← List.flatMap_def] at h

theorem ruled_rule (k : Nat) : Ruled '+' k (rule k) := by
  have hfirst : Ruled '+' 0 (List.replicate (width + 1) '-' ++ ['+']) := ruled_zero rfl rfl
  have hothers : ∀ u ∈ List.replicate k (List.replicate (width + 2) '-' ++ ['+']),
      u.length = width + 3 ∧ u[width + 2]? = some '+' := by
    intro u hu
    rw [(List.mem_replicate.1 hu).2]
    exact ⟨rfl, rfl⟩
  have h := hfirst.append hothers
  rwa [List.length_replicate, Nat.zero_add] at h

end bars

def preface (d : Dfa) : List (List Char) :=
  ["Start State: ".toList ++ decimal d.start,
    "Final States: \x7b ".toList ++ List.intercalate [',', ' '] (d.finals.map decimal) ++
      " \x7d".toList,
    []]

def header (d : Dfa) : List Char := line "State".toList (d.alphabet.map fun c => [c])

def remark : List (List Char) := [[], "(* denotes final state)".toList]

theorem table_eq (d : Dfa) : d.table = unlines (preface d ++
    header d :: rule d.alphabet.length :: (d.states.map (stateLine d) ++ remark)) :=
  rfl

section lines
variable {A : Alphabet}

theorem word_title : Word "State".toList := ⟨by decide, by simp [isWhiteSpace, whiteSpaceRanges]⟩

theorem word_symbols (h : d.Orderly A) : ∀ u ∈ d.alphabet.map fun c => [c], Word u :=
  List.forall_mem_map.2 fun _ hc =>
    ⟨List.cons_ne_nil _ _, List.forall_mem_singleton.2 (h.isWhiteSpace_eq_false hc)⟩

theorem not_mem_intercalate {c : Char} {separator : List Char} {ls : List (List Char)}
    (hseparator : c ∉ separator) (h : ∀ l ∈ ls, c ∉ l) : c ∉ List.intercalate separator ls := by
  induction ls with
  | nil => exact List.not_mem_nil
  | cons l ls ih =>
    obtain ⟨hl, hls⟩ := List.forall_mem_cons.1 h
    cases ls with
    | nil => simpa using hl
    | cons l' ls =>
      rw [List.intercalate_cons_cons]
      simp only [List.mem_append, not_or]
      exact ⟨⟨hl, hseparator⟩, ih hls⟩

theorem not_mem_preface (d : Dfa) : ∀ l ∈ preface d, '\n' ∉ l := by
  have hdecimal (n : Nat) : '\n' ∉ decimal n := (word_decimal n).not_mem (by decide)
  have hfinals : '\n' ∉ List.intercalate [',', ' '] (d.finals.map decimal) :=
    not_mem_intercalate (by decide) (List.forall_mem_map.2 fun n _ => hdecimal n)
  simp [preface, hdecimal, hfinals]

theorem not_mem_rule (k : Nat) : '\n' ∉ rule k := by
  simp [rule]

/-- No line is broken, since no symbol is white space. -/
theorem lines_table (h : d.Orderly A) : lines d.table =
    preface d ++ header d :: rule d.alphabet.length :: (d.states.map (stateLine d) ++ remark) := by
  have hremark : ∀ l ∈ remark, '\n' ∉ l := by decide
  rw [table_eq]
  refine lines_unlines fun l hl => ?_
  obtain hl | hl := List.mem_append.1 hl
  · exact not_mem_preface d l hl
  obtain rfl | hl := List.mem_cons.1 hl
  · exact not_mem_line word_title (word_symbols h)
  obtain rfl | hl := List.mem_cons.1 hl
  · exact not_mem_rule _
  obtain hl | hl := List.mem_append.1 hl
  · obtain ⟨q, _, rfl⟩ := List.mem_map.1 hl
    exact not_mem_line (word_stateLabel q) (word_stateEntries d q)
  · exact hremark l hl

end lines

end Table

open Table
variable {A A' : Alphabet} {d d' : Dfa}

/-- Equal tables have equal lines, and each line is read on its own. -/
theorem agree_of_table_eq (h : d.Orderly A) (h' : d'.Orderly A') (htable : d.table = d'.table) :
    d.alphabet = d'.alphabet ∧ d.start = d'.start ∧
      d.states.map (stateLine d) = d'.states.map (stateLine d') := by
  have hlines := congrArg lines htable
  rw [lines_table h, lines_table h'] at hlines
  -- the start, the final states, a blank line, the header and the rule stand in front of the states
  obtain ⟨hstart, hlines⟩ := List.cons.inj hlines
  obtain ⟨_, hlines⟩ := List.cons.inj hlines
  obtain ⟨_, hlines⟩ := List.cons.inj hlines
  obtain ⟨hheader, hlines⟩ := List.cons.inj hlines
  obtain ⟨_, hlines⟩ := List.cons.inj hlines
  have hsymbols := (line_inj word_title word_title (word_symbols h) (word_symbols h') hheader).2
  refine ⟨?_, decimal_inj.1 (List.append_cancel_left hstart), List.append_cancel_right hlines⟩
  exact List.map_injective_iff.2 List.singleton_injective hsymbols

section states
variable (halphabet : d.alphabet = d'.alphabet)
  (hstates : d.states.map (stateLine d) = d'.states.map (stateLine d'))
include halphabet hstates

theorem state?_agree (i : Nat) : (d.state? i = none ∧ d'.state? i = none) ∨
    ∃ q q', d.state? i = some q ∧ d'.state? i = some q' ∧ q.id = q'.id ∧
      q.isFinal = q'.isFinal ∧ ∀ c ∈ d.alphabet, d.next? q.id c = d'.next? q'.id c := by
  have hline : (d.state? i).map (stateLine d) = (d'.state? i).map (stateLine d') := by
    have hget := congrArg (·[i]?) hstates
    simpa [state?] using hget
  cases hq : d.state? i with
  | none =>
    rw [hq, Option.map_none] at hline
    exact .inl ⟨rfl, Option.map_eq_none_iff.1 hline.symm⟩
  | some q =>
    rw [hq, Option.map_some] at hline
    obtain ⟨q', hq', hline⟩ := Option.map_eq_some_iff.1 hline.symm
    exact .inr ⟨q, q', rfl, hq', stateLine_inj halphabet hline.symm⟩

theorem marks_eq_of_stateLines : d.marks = d'.marks := by
  refine List.ext_getElem? fun i => ?_
  rw [marks, marks, List.getElem?_map, List.getElem?_map]
  change (d.state? i).map _ = (d'.state? i).map _
  obtain ⟨hq, hq'⟩ | ⟨q, q', hq, hq', hid, hfinal, _⟩ := state?_agree halphabet hstates i
  · rw [hq, hq', Option.map_none]
  · rw [hq, hq', Option.map_some, Option.map_some, hid, hfinal]

theorem next?_eq_of_stateLines (h : d.Orderly A) (h' : d'.Orderly A') (i : Nat) (c : Char) :
    d.next? i c = d'.next? i c := by
  obtain ⟨hq, hq'⟩ | ⟨q, q', hq, hq', _, _, hnext⟩ := state?_agree halphabet hstates i
  · rw [next?, next?, hq, hq', Option.bind_none]
  · rw [h.id_eq hq, h'.id_eq hq'] at hnext
    by_cases hc : c ∈ d.alphabet
    · exact hnext c hc
    · rw [h.next?_eq_none hc, h'.next?_eq_none (halphabet ▸ hc)]

end states

theorem length_decimal_lt {n : Nat} (h : n < 1000000) : (decimal n).length < width :=
  Nat.lt_succ_of_le ((Nat.length_toDigits_le_iff (by decide) (by decide)).2 h)

section widths
variable (h : d.Orderly A) (hsize : d.size ≤ 1000000)
include h hsize

theorem length_stateLabel_le {q : State} (hq : q ∈ d.states) :
    (stateLabel q).length ≤ width := by
  have hid := length_decimal_lt (Nat.lt_of_lt_of_le (h.id_lt hq) hsize)
  unfold stateLabel
  split
  · exact hid
  · exact Nat.le_of_lt hid

theorem length_entry_le (i : Nat) (c : Char) : (entry (d.next? i c)).length ≤ width := by
  cases hj : d.next? i c with
  | none => decide
  | some j => exact Nat.le_of_lt (length_decimal_lt (Nat.lt_of_lt_of_le (h.of_next? hj).2 hsize))

theorem ruled_stateLine {q : State} (hq : q ∈ d.states) :
    Ruled '|' d.alphabet.length (stateLine d q) := by
  have hentries : ∀ u ∈ d.alphabet.map fun c => entry (d.next? q.id c), u.length ≤ width :=
    List.forall_mem_map.2 fun c _ => length_entry_le h hsize q.id c
  have hline := ruled_line (length_stateLabel_le h hsize hq) hentries
  rwa [List.length_map] at hline

end widths

theorem ruled_header (d : Dfa) : Ruled '|' d.alphabet.length (header d) := by
  have hone : 1 ≤ width := by decide
  have hsymbols : ∀ u ∈ d.alphabet.map fun c => [c], u.length ≤ width :=
    List.forall_mem_map.2 fun _ _ => hone
  have hline := ruled_line (t := "State".toList) (by decide) hsymbols
  rwa [List.length_map] at hline

/-- What is in a table is all that an automaton does, and every line of a table with one million states
at most is divided at the same places. -/
theorem table_ofNfa? {m : Nfa} {d : Logged Dfa} (hd : ofNfa? A m = some d) :
    (∀ A' m' d', ofNfa? A' m' = some d' → d.value.table = d'.value.table →
      d.value.alphabet = d'.value.alphabet ∧ d.value.start = d'.value.start ∧
        d.value.size = d'.value.size ∧ d.value.finals = d'.value.finals ∧
        ∀ i c, d.value.next? i c = d'.value.next? i c) ∧
    (d.value.size ≤ 1000000 → ∃ first second header rule rows,
      lines d.value.table =
        first :: second :: [] :: header :: rule :: rows ++ [[], "(* denotes final state)".toList] ∧
      rows.length = d.value.size ∧ (∀ l ∈ header :: rows, Ruled '|' d.value.alphabet.length l) ∧
      Ruled '+' d.value.alphabet.length rule) := by
  have h := orderly_ofNfa? hd
  constructor
  · intro A' m' d' hd' htable
    have h' := orderly_ofNfa? hd'
    obtain ⟨halphabet, hstart, hstates⟩ := agree_of_table_eq h h' htable
    obtain ⟨hsize, hfinals⟩ := size_finals_of_marks_eq (marks_eq_of_stateLines halphabet hstates)
    exact ⟨halphabet, hstart, hsize, hfinals, next?_eq_of_stateLines halphabet hstates h h'⟩
  · intro hsize
    refine ⟨_, _, header d.value, rule d.value.alphabet.length, d.value.states.map (stateLine d.value),
      lines_table h, ?_, List.forall_mem_cons.2 ⟨ruled_header _, ?_⟩, ruled_rule _⟩
    · rw [List.length_map, length_states]
    · exact List.forall_mem_map.2 fun q hq => ruled_stateLine h hsize hq

/-- Two automata for a bar have one table, although their states stand for other sets. -/
theorem table_ofNfa?_bar : ∃ d d',
    ofNfa? (Alphabet.empty.extend ['|', '-']) (.symbol 0 '|') = some d ∧
    ofNfa? (Alphabet.empty.extend ['|', '-']) (.symbol 2 '|') = some d' ∧
    d.value ≠ d'.value ∧ d.value.table = d'.value.table ∧
    (∀ i c, d.value.next? i c = d'.value.next? i c) ∧ d.value.size = 2 ∧
    ∃ l ∈ lines d.value.table, Ruled '+' 2 l := by
  obtain ⟨d, hd⟩ : ∃ d, ofNfa? (Alphabet.empty.extend ['|', '-']) (.symbol 0 '|') = some d :=
    ⟨_, rfl⟩
  obtain ⟨d', hd'⟩ : ∃ d, ofNfa? (Alphabet.empty.extend ['|', '-']) (.symbol 2 '|') = some d :=
    ⟨_, rfl⟩
  have hne : d.value ≠ d'.value := by
    obtain rfl := Option.some.inj hd
    obtain rfl := Option.some.inj hd'
    decide
  have htable : d.value.table = d'.value.table := by
    obtain rfl := Option.some.inj hd
    obtain rfl := Option.some.inj hd'
    rfl
  have hsize : d.value.size = 2 := by
    obtain rfl := Option.some.inj hd
    decide
  obtain ⟨hsame, hruled⟩ := table_ofNfa? hd
  obtain ⟨_, _, _, _, hnext⟩ := hsame _ _ d' hd' htable
  obtain ⟨_, _, _, rule, _, hlines, _, _, hrule⟩ := hruled (by omega)
  refine ⟨d, d', hd, hd', hne, htable, hnext, hsize, rule, ?_, ?_⟩
  · simp [hlines]
  · obtain rfl := Option.some.inj hd
    exact hrule

end RegexAutomata.Dfa
