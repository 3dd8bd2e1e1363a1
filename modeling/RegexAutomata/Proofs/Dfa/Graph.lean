import RegexAutomata.Dfa.Graph.Reader
import RegexAutomata.Nfa.Thompson
import RegexAutomata.Proofs.Dfa.Layout
import RegexAutomata.Proofs.Nfa.Listing

/-! The graph tells everything about its automaton but the alphabet and the sets that the states stand
for. A quote and a backslash are read back from a label like any other symbol. -/
namespace RegexAutomata.Dfa
namespace Graph

def startLine (id : Nat) : List Char := "    __start -> ".toList ++ node id ++ [';']

section readers

/-- The text of one symbol is read as this symbol, whatever follows. -/
theorem unquote?_labelText_append (c : Char) (t : List Char) :
    unquote? (labelText c ++ t) = (unquote? t).map fun (text, rest) => (c :: text, rest) := by
  unfold labelText
  split
  · rfl
  · obtain ⟨hquote, hbackslash⟩ := not_or.1 ‹_›
    rw [List.singleton_append, unquote?]
    · exact hquote
    · exact fun _ _ hc => absurd hc hbackslash

theorem unquote?_label (c : Char) (t : List Char) :
    unquote? (labelText c ++ '"' :: t) = some ([c], t) :=
  unquote?_labelText_append c ('"' :: t)

theorem nodeBehind?_append (title : List Char) (id : Nat) {t : List Char}
    (h : t.takeWhile Char.isDigit = []) :
    nodeBehind? title (title ++ (node id ++ t)) = some (id, t) := by
  unfold nodeBehind?
  refine Option.bind_eq_some_iff.2 ⟨_, dropPrefix?_append _ _, ?_⟩
  exact Option.bind_eq_some_iff.2 ⟨_, dropPrefix?_append ['q'] _, number?_decimal_append id h⟩

def shapeText (isFinal : Bool) : List Char :=
  " [shape = ".toList ++
    ((if isFinal then "doublecircle".toList else "circle".toList) ++ "];".toList)

theorem nodeBehind?_nodeLine (q : State) :
    nodeBehind? "    ".toList (nodeLine q) = some (q.id, shapeText q.isFinal) := by
  unfold nodeLine
  rw [List.append_assoc, List.append_assoc, List.append_assoc]
  exact nodeBehind?_append _ q.id rfl

theorem nodeBehind?_startLine (id : Nat) :
    nodeBehind? "    __start -> ".toList (startLine id) = some (id, [';']) := by
  unfold startLine
  rw [List.append_assoc]
  exact nodeBehind?_append _ id rfl

def arrowText (c : Char) (target : Nat) : List Char :=
  " -> ".toList ++ (node target ++ (" [label = \"".toList ++ (labelText c ++ "\"];".toList)))

theorem nodeBehind?_edgeLine (i j : Nat) (c : Char) :
    nodeBehind? "    ".toList (edgeLine i c j) = some (i, arrowText c j) := by
  unfold edgeLine
  rw [List.append_assoc, List.append_assoc, List.append_assoc, List.append_assoc, List.append_assoc]
  exact nodeBehind?_append _ i rfl

theorem mark?_nodeLine (q : State) : mark? (nodeLine q) = some (q.id, q.isFinal) := by
  rw [mark?, nodeBehind?_nodeLine]
  cases q.isFinal <;> rfl

theorem mark?_startLine (id : Nat) : mark? (startLine id) = none := rfl

theorem mark?_edgeLine (i j : Nat) (c : Char) : mark? (edgeLine i c j) = none := by
  rw [mark?, nodeBehind?_edgeLine]
  rfl

theorem start?_nodeLine (q : State) : start? (nodeLine q) = none := rfl

theorem start?_startLine (id : Nat) : start? (startLine id) = some id := by
  rw [start?, nodeBehind?_startLine]
  rfl

theorem start?_edgeLine (i j : Nat) (c : Char) : start? (edgeLine i c j) = none := rfl

theorem arrow?_nodeLine (q : State) : arrow? (nodeLine q) = none := by
  rw [arrow?, nodeBehind?_nodeLine]
  rfl

theorem arrow?_startLine (id : Nat) : arrow? (startLine id) = none := rfl

theorem arrow?_edgeLine (i j : Nat) (c : Char) :
    arrow? (edgeLine i c j) = some (i, j, [c], "];".toList) := by
  unfold arrow?
  refine Option.bind_eq_some_iff.2 ⟨_, nodeBehind?_edgeLine i j c, ?_⟩
  refine Option.bind_eq_some_iff.2 ⟨_, nodeBehind?_append _ j rfl, ?_⟩
  refine Option.bind_eq_some_iff.2 ⟨_, dropPrefix?_append _ _, ?_⟩
  exact Option.bind_eq_some_iff.2 ⟨_, unquote?_label c _, rfl⟩

end readers

def opening : List (List Char) :=
  ["digraph dfa \x7b".toList, "    rankdir = LR;".toList, "    __start [shape = point];".toList]

def closing : List (List Char) := ["\x7d".toList]

theorem graph_eq (d : Dfa) : d.graph = unlines (opening ++ d.states.map nodeLine ++
    (startLine d.start :: d.transitions.map fun x => edgeLine x.1 x.2.1 x.2.2) ++ closing) :=
  rfl

section lines
variable {A : Alphabet} {α : Type} {d : Dfa} {c : Char}

theorem not_mem_node (id : Nat) : '\n' ∉ node id := by
  simp [node, Nfa.Listing.not_mem_decimal]

theorem not_mem_nodeLine (q : State) : '\n' ∉ nodeLine q := by
  have hshape : '\n' ∉ (if q.isFinal then "doublecircle".toList else "circle".toList) := by
    cases q.isFinal <;> decide
  unfold nodeLine
  simp only [List.mem_append, not_or]
  exact ⟨⟨⟨⟨by decide, not_mem_node q.id⟩, by decide⟩, hshape⟩, by decide⟩

theorem not_mem_startLine (id : Nat) : '\n' ∉ startLine id := by
  unfold startLine
  simp only [List.mem_append, not_or]
  exact ⟨⟨by decide, not_mem_node id⟩, by decide⟩

theorem not_mem_edgeLine (i j : Nat) (hc : c ≠ '\n') : '\n' ∉ edgeLine i c j := by
  have hlabel : '\n' ∉ labelText c := by
    unfold labelText
    split <;> simp [hc.symm]
  unfold edgeLine
  simp only [List.mem_append, not_or]
  exact ⟨⟨⟨⟨⟨⟨by decide, not_mem_node i⟩, by decide⟩, not_mem_node j⟩, by decide⟩, hlabel⟩, by decide⟩

theorem ne_of_mem_transitions (h : d.Orderly A) {x : Nat × Char × Nat} (hx : x ∈ d.transitions) :
    x.2.1 ≠ '\n' := by
  obtain ⟨q, hq, hx⟩ := List.mem_flatMap.1 hx
  obtain ⟨y, hy, rfl⟩ := List.mem_map.1 hx
  have hsolid := h.isWhiteSpace_eq_false (h.row_over q hq y hy).1
  intro hfeed
  rw [show y.1 = '\n' from hfeed] at hsolid
  cases hsolid

/-- No line is broken, since no symbol is white space. -/
theorem lines_graph (h : d.Orderly A) : lines d.graph = opening ++ d.states.map nodeLine ++
    (startLine d.start :: d.transitions.map fun x => edgeLine x.1 x.2.1 x.2.2) ++ closing := by
  have hopening : ∀ l ∈ opening, '\n' ∉ l := by decide
  have hclosing : ∀ l ∈ closing, '\n' ∉ l := by decide
  have hnodes : ∀ l ∈ d.states.map nodeLine, '\n' ∉ l :=
    List.forall_mem_map.2 fun q _ => not_mem_nodeLine q
  have hedges : ∀ l ∈ d.transitions.map fun x => edgeLine x.1 x.2.1 x.2.2, '\n' ∉ l :=
    List.forall_mem_map.2 fun x hx => not_mem_edgeLine x.1 x.2.2 (ne_of_mem_transitions h hx)
  rw [graph_eq]
  refine lines_unlines (List.forall_mem_append.2 ⟨List.forall_mem_append.2 ⟨?_, ?_⟩, hclosing⟩)
  · exact List.forall_mem_append.2 ⟨hopening, hnodes⟩
  · exact List.forall_mem_cons.2 ⟨not_mem_startLine d.start, hedges⟩

/-- A reader that passes over the frame reads the nodes, the start line and the edges. -/
theorem filterMap_graph (h : d.Orderly A) (f : List Char → Option α)
    (hopening : ∀ l ∈ opening, f l = none) (hclosing : ∀ l ∈ closing, f l = none) :
    (lines d.graph).filterMap f = d.states.filterMap (fun q => f (nodeLine q)) ++
      ((f (startLine d.start)).toList ++
        d.transitions.filterMap fun x => f (edgeLine x.1 x.2.1 x.2.2)) := by
  have hstart (ls : List (List Char)) : (startLine d.start :: ls).filterMap f =
      (f (startLine d.start)).toList ++ ls.filterMap f := by
    cases hread : f (startLine d.start) <;> simp [hread]
  rw [lines_graph h, List.filterMap_append, List.filterMap_append, List.filterMap_append,
    List.filterMap_eq_nil_iff.2 hopening, List.filterMap_eq_nil_iff.2 hclosing, hstart,
    List.filterMap_map, List.filterMap_map, List.nil_append, List.append_nil]
  rfl

theorem filterMap_mark? (h : d.Orderly A) : (lines d.graph).filterMap mark? = d.marks := by
  rw [filterMap_graph h mark? (by decide) (by decide)]
  simp only [mark?_nodeLine, mark?_startLine, mark?_edgeLine]
  simp [marks]

theorem filterMap_start? (h : d.Orderly A) : (lines d.graph).filterMap start? = [d.start] := by
  rw [filterMap_graph h start? (by decide) (by decide)]
  simp [start?_nodeLine, start?_startLine, start?_edgeLine]

theorem filterMap_arrow? (h : d.Orderly A) : (lines d.graph).filterMap arrow? =
    d.transitions.map fun x => (x.1, x.2.2, [x.2.1], "];".toList) := by
  rw [filterMap_graph h arrow? (by decide) (by decide)]
  simp only [arrow?_nodeLine, arrow?_startLine, arrow?_edgeLine]
  simp

end lines

end Graph

open Dfa.Graph

/-- What is in a graph is all that an automaton does with its letters, and in every edge line the first
quote that is not escaped ends the label and stands in front of the end of the line. -/
theorem graph_ofNfa? {A : Alphabet} {m : Nfa} {d : Logged Dfa} (hd : ofNfa? A m = some d) :
    (∀ A' m' d', ofNfa? A' m' = some d' → d.value.graph = d'.value.graph →
      d.value.size = d'.value.size ∧ d.value.start = d'.value.start ∧
        d.value.finals = d'.value.finals ∧ d.value.transitions = d'.value.transitions) ∧
    ∃ front edges, lines d.value.graph = front ++ edges ++ [['\x7d']] ∧
      front.length = d.value.size + 4 ∧
      edges.map arrow? =
        d.value.transitions.map fun x => some (x.1, x.2.2, [x.2.1], "];".toList) := by
  have h := orderly_ofNfa? hd
  constructor
  · intro A' m' d' hd' hgraph
    have h' := orderly_ofNfa? hd'
    have hmarks : d.value.marks = d'.value.marks := by
      rw [← filterMap_mark? h, hgraph, filterMap_mark? h']
    have hstart : [d.value.start] = [d'.value.start] := by
      rw [← filterMap_start? h, hgraph, filterMap_start? h']
    have harrows := filterMap_arrow? h
    rw [hgraph, filterMap_arrow? h'] at harrows
    obtain ⟨hsize, hfinals⟩ := size_finals_of_marks_eq hmarks
    refine ⟨hsize, List.singleton_injective hstart, hfinals, ?_⟩
    refine List.map_injective_iff.2 ?_ harrows.symm
    rintro ⟨i, c, j⟩ ⟨i', c', j'⟩ hx
    simpa [and_comm] using hx
  · refine ⟨opening ++ d.value.states.map nodeLine ++ [startLine d.value.start],
      d.value.transitions.map fun x => edgeLine x.1 x.2.1 x.2.2, ?_, ?_, ?_⟩
    · rw [lines_graph h]
      simp [closing]
    · simp [opening, size]
    · rw [List.map_map]
      exact List.map_congr_left fun x _ => arrow?_edgeLine x.1 x.2.2 x.2.1

def quoteOrBackslash (n : Nat) : Nfa := .union (n + 4) (.symbol n '"') (.symbol (n + 2) '\\')

theorem graph_ofNfa?_quoteOrBackslash : ∃ d d',
    ofNfa? (Alphabet.empty.extend ['"', '\\']) (quoteOrBackslash 0) = some d ∧
    ofNfa? (Alphabet.empty.extend ['"', '\\']) (quoteOrBackslash 7) = some d' ∧
    d.value ≠ d'.value ∧ d.value.graph = d'.value.graph ∧
    d.value.transitions = d'.value.transitions ∧
    ∃ l ∈ lines d.value.graph, arrow? l = some (0, 2, ['\\'], "];".toList) := by
  obtain ⟨d, hd⟩ : ∃ d, ofNfa? (Alphabet.empty.extend ['"', '\\']) (quoteOrBackslash 0) = some d :=
    ⟨_, rfl⟩
  obtain ⟨d', hd'⟩ : ∃ d, ofNfa? (Alphabet.empty.extend ['"', '\\']) (quoteOrBackslash 7) = some d :=
    ⟨_, rfl⟩
  have hne : d.value ≠ d'.value := by
    obtain rfl := Option.some.inj hd
    obtain rfl := Option.some.inj hd'
    decide
  have hgraph : d.value.graph = d'.value.graph := by
    obtain rfl := Option.some.inj hd
    obtain rfl := Option.some.inj hd'
    decide +kernel
  have hmoves : d.value.transitions = [(0, '"', 1), (0, '\\', 2)] := by
    obtain rfl := Option.some.inj hd
    rfl
  obtain ⟨hsame, front, edges, hlines, _, harrows⟩ := graph_ofNfa? hd
  obtain ⟨_, _, _, htransitions⟩ := hsame _ _ d' hd' hgraph
  refine ⟨d, d', hd, hd', hne, hgraph, htransitions, ?_⟩
  rw [hmoves] at harrows
  have hmem : some (0, 2, ['\\'], "];".toList) ∈ edges.map arrow? := by
    rw [harrows]
    exact List.mem_of_mem_tail (List.mem_singleton_self _)
  obtain ⟨l, hl, harrow⟩ := List.mem_map.1 hmem
  refine ⟨l, ?_, harrow⟩
  rw [hlines]
  exact List.mem_append_left _ (List.mem_append_right _ hl)

end RegexAutomata.Dfa
