import RegexAutomata.Keyed.Lemmas
import RegexAutomata.Nfa.Listing.Reader

/-! What is read from a listing: everything but the difference between an epsilon edge and an edge
for the symbol epsilon. -/
namespace RegexAutomata

theorem dropPrefix?_append (p t : List Char) : (p ++ t).dropPrefix? p = some t :=
  List.dropPrefix?_append_of_beq t (beq_self_eq_true p)

theorem map_eq_self_iff {α : Type} {f : α → α} {l : List α} : l.map f = l ↔ ∀ a ∈ l, f a = a := by
  have hid := List.map_inj_left (l := l) (f := f) (g := id)
  rwa [List.map_id] at hid

theorem number?_decimal (n : Nat) : number? (decimal n) = some (n, []) := by
  simpa using number?_decimal_append n (t := []) rfl

theorem Label.blurred_eq_self_iff {l : Label} : l.blurred = l ↔ l ≠ .symbol 'ε' := by
  cases l with
  | epsilon => simp [Label.blurred]
  | symbol c => by_cases hc : c = 'ε' <;> simp [Label.blurred, Label.ofChar, hc]

namespace Nfa

theorem State.blurred_eq_self_iff {s : State} :
    s.blurred = s ↔ ∀ e ∈ s.edges, e.label ≠ .symbol 'ε' := by
  have hedges : s.blurred = s ↔ s.edges.map Edge.blurred = s.edges := by
    obtain ⟨id, isStart, isFinal, edges⟩ := s
    simp [State.blurred]
  have hedge (e : Edge) : e.blurred = e ↔ e.label ≠ .symbol 'ε' := by
    obtain ⟨l, target⟩ := e
    simp [Edge.blurred, Label.blurred_eq_self_iff]
  rw [hedges, map_eq_self_iff]
  exact forall₂_congr fun e _ => hedge e

namespace Listing
variable {id : Nat} {e : Edge} {s : State} {states : List State} {rest : List (List Char)}

theorem endId?_endText (title : List Char) (id : Nat) :
    endId? title (title ++ endText (some id)) = some id := by
  simp [endId?, dropPrefix?_append, endText, number?_decimal]

/-- Both marks are found, whichever of them are there. -/
theorem head?_headLine (s : State) : head? (headLine s) = some { s with edges := [] } := by
  have hdigits : ((if s.isStart then " (start)".toList else []) ++
      (if s.isFinal then " (final)".toList else [])).takeWhile Char.isDigit = [] := by
    cases s.isStart <;> cases s.isFinal <;> rfl
  unfold head? headLine
  rw [List.append_assoc, List.append_assoc]
  refine Option.bind_eq_some_iff.2 ⟨_, dropPrefix?_append _ _, ?_⟩
  refine Option.bind_eq_some_iff.2 ⟨_, number?_decimal_append s.id hdigits, ?_⟩
  obtain ⟨id, isStart, isFinal, edges⟩ := s
  cases isStart <;> cases isFinal <;> rfl

def shown : Label → Char
  | .symbol c => c
  | .epsilon => 'ε'

theorem text_eq (l : Label) : Label.text l = [shown l] := by cases l <;> rfl

theorem ofChar_shown (l : Label) : .ofChar (shown l) = l.blurred := by cases l <;> rfl

theorem arrow?_edgeLine (id : Nat) (e : Edge) :
    arrow? (edgeLine id e) = some (id, shown e.label, e.target) := by
  unfold arrow? edgeLine
  rw [text_eq, List.append_assoc, List.append_assoc, List.append_assoc, List.append_assoc]
  refine Option.bind_eq_some_iff.2 ⟨_, dropPrefix?_append _ _, ?_⟩
  refine Option.bind_eq_some_iff.2 ⟨_, number?_decimal_append id rfl, ?_⟩
  refine Option.bind_eq_some_iff.2 ⟨_, dropPrefix?_append _ _, ?_⟩
  refine Option.bind_eq_some_iff.2 ⟨shown e.label, rfl, ?_⟩
  refine Option.bind_eq_some_iff.2 ⟨_, dropPrefix?_append _ _, ?_⟩
  exact Option.bind_eq_some_iff.2 ⟨_, number?_decimal e.target, rfl⟩

def Shows (line : List Char) (c : Char) : Prop := ∃ i j, arrow? line = some (i, c, j)

theorem shows_edgeLine_iff {c : Char} : Shows (edgeLine id e) c ↔ shown e.label = c := by
  simp [Shows, arrow?_edgeLine]

/-- A line tells whether its edge is an epsilon edge, unless it is one for the symbol epsilon. -/
theorem shows_epsilon_iff :
    (Shows (edgeLine id e) 'ε' ↔ e.label = .epsilon) ↔ e.label ≠ .symbol 'ε' := by
  rw [shows_edgeLine_iff]
  cases e.label <;> simp [shown]

theorem head?_edgeLine (id : Nat) (e : Edge) : head? (edgeLine id e) = none := rfl

/-- The edge lines of a state wait for its head line. -/
theorem gather?_edgeLines (id : Nat) (edges : List Edge)
    (h : gather? rest = some ([], states)) :
    gather? (edges.map (edgeLine id) ++ rest) =
      some (edges.map fun e => (id, shown e.label, e.target), states) := by
  induction edges with
  | nil => exact h
  | cons e edges ih => 
    rw [List.map_cons, List.cons_append, gather?]
    refine Option.bind_eq_some_iff.2 ⟨_, ih, ?_⟩
    simp only [head?_edgeLine, arrow?_edgeLine, List.map_cons]

/-- The head line of a state takes the edges that have been waiting for it. -/
theorem gather?_headLine (s : State)
    (h : gather? rest = some (s.edges.map fun e => (s.id, shown e.label, e.target), states)) :
    gather? (headLine s :: rest) = some ([], s.blurred :: states) := by
  rw [gather?]
  refine Option.bind_eq_some_iff.2 ⟨_, h, ?_⟩
  simp [head?_headLine, State.blurred, Edge.blurred, ofChar_shown]

theorem gather?_stateLines (s : State) (h : gather? rest = some ([], states)) :
    gather? (stateLines s ++ rest) = some ([], s.blurred :: states) := by
  rw [stateLines, List.cons_append]
  refine gather?_headLine s ?_
  cases hedges : s.edges with
  | nil =>
    change gather? ("  no outgoing edges".toList :: rest) = _
    rw [gather?]
    exact Option.bind_eq_some_iff.2 ⟨_, h, rfl⟩
  | cons e edges => exact gather?_edgeLines s.id (e :: edges) h

theorem states?_flatMap (states : List State) :
    states? (states.flatMap stateLines) = some (states.map State.blurred) := by
  have hgather : gather? (states.flatMap stateLines) = some ([], states.map State.blurred) := by
    induction states with
    | nil => rfl
    | cons s states ih => exact gather?_stateLines s ih
  exact Option.bind_eq_some_iff.2 ⟨_, hgather, rfl⟩

section lineFeed

theorem not_mem_decimal (n : Nat) : '\n' ∉ decimal n := by
  intro h
  have hdigit : Char.isDigit '\n' = true := isDigit_of_mem_decimal h
  cases hdigit

theorem not_mem_endLine {title : List Char} (h : '\n' ∉ title) (id : Nat) :
    '\n' ∉ title ++ endText (some id) := by
  simp [endText, h, not_mem_decimal]

theorem not_mem_headLine (s : State) : '\n' ∉ headLine s := by
  have hmarks : '\n' ∉ ((if s.isStart then " (start)".toList else []) ++
      (if s.isFinal then " (final)".toList else [])) := by
    cases s.isStart <;> cases s.isFinal <;> decide
  unfold headLine
  simp only [List.mem_append, not_or] at hmarks ⊢
  exact ⟨⟨⟨by decide, not_mem_decimal s.id⟩, hmarks.1⟩, hmarks.2⟩

theorem not_mem_edgeLine (id : Nat) (he : e.label ≠ .symbol '\n') : '\n' ∉ edgeLine id e := by
  have hshown : shown e.label ≠ '\n' := by
    cases hlabel : e.label with
    | symbol c => exact fun hc => he (hlabel.trans (congrArg Label.symbol hc))
    | epsilon => decide
  unfold edgeLine
  rw [text_eq]
  simp only [List.mem_append, List.mem_singleton, not_or]
  exact ⟨⟨⟨⟨⟨by decide, not_mem_decimal id⟩, by decide⟩, hshown.symm⟩, by decide⟩,
    not_mem_decimal e.target⟩

theorem not_mem_stateLines (h : ∀ e ∈ s.edges, e.label ≠ .symbol '\n') :
    ∀ l ∈ stateLines s, '\n' ∉ l := by
  rw [stateLines]
  refine List.forall_mem_cons.2 ⟨not_mem_headLine s, ?_⟩
  intro l hl
  by_cases hedges : s.edges.isEmpty = true
  · rw [if_pos hedges] at hl
    rw [List.mem_singleton.1 hl]
    decide
  · rw [if_neg hedges] at hl
    obtain ⟨e, he, rfl⟩ := List.mem_map.1 hl
    exact not_mem_edgeLine s.id (h e he)

end lineFeed
end Listing

variable {m : Nfa}

/-- A listing with both ends is read back, up to edges for the symbol epsilon, unless a line feed is
shown as a label. -/
theorem ofListing?_listing (hstart : m.start? = some m.entry) (haccept : m.accept? = some m.exit)
    (h : ∀ s ∈ m.states.toList, ∀ e ∈ s.edges, e.label ≠ .symbol '\n') :
    ofListing? m.listing = some m.blurred := by
  have hbody : ∀ l ∈ m.states.toList.flatMap Listing.stateLines, '\n' ∉ l := by
    intro l hl
    obtain ⟨s, hs, hl⟩ := List.mem_flatMap.1 hl
    exact Listing.not_mem_stateLines (h s hs) l hl
  have hlines : ∀ l ∈ ("Start State: ".toList ++ Listing.endText (some m.entry)) ::
      ("Final State: ".toList ++ Listing.endText (some m.exit)) :: [] ::
        m.states.toList.flatMap Listing.stateLines, '\n' ∉ l := by
    refine List.forall_mem_cons.2 ⟨Listing.not_mem_endLine (by decide) _, ?_⟩
    refine List.forall_mem_cons.2 ⟨Listing.not_mem_endLine (by decide) _, ?_⟩
    exact List.forall_mem_cons.2 ⟨List.not_mem_nil, hbody⟩
  unfold ofListing? listing
  rw [hstart, haccept, lines_unlines hlines]
  refine Option.bind_eq_some_iff.2 ⟨_, Listing.endId?_endText _ m.entry, ?_⟩
  refine Option.bind_eq_some_iff.2 ⟨_, Listing.endId?_endText _ m.exit, ?_⟩
  refine Option.bind_eq_some_iff.2 ⟨_, Listing.states?_flatMap _, ?_⟩
  have hstates : .ofList (m.states.toList.map State.blurred) = m.blurred.states :=
    Keyed.ofList_toList m.blurred.states
  rw [hstates]
  rfl

/-- Nothing is lost exactly where no edge is labelled with the symbol epsilon. -/
theorem blurred_eq_self_iff :
    m.blurred = m ↔ ∀ s ∈ m.states.toList, ∀ e ∈ s.edges, e.label ≠ .symbol 'ε' := by
  have hstates : m.blurred = m ↔ m.states.toList.map State.blurred = m.states.toList := by
    obtain ⟨states, entry, exit⟩ := m
    simp [blurred, ← Keyed.toList_inj]
  rw [hstates, map_eq_self_iff]
  exact forall₂_congr fun s _ => State.blurred_eq_self_iff

end Nfa
end RegexAutomata
