import RegexAutomata.Proofs.Alphabet.Registry
import RegexAutomata.Proofs.Dfa.Report

/-! What the texts of a deterministic automaton rely on. Its states are numbered by their places, its
transitions are for symbols of the alphabet and lead to states, and no symbol is white space. -/
namespace RegexAutomata.Dfa
open Exploration
variable {A : Alphabet} {m : Nfa} {d d' : Dfa} {i j : Nat} {c : Char} {q : State}

structure Orderly (A : Alphabet) (d : Dfa) : Prop where
  alphabet_eq : d.alphabet = A.toList
  ids_eq : d.states.map State.id = List.range d.size
  row_over : ∀ q ∈ d.states, ∀ x ∈ q.row, x.1 ∈ d.alphabet ∧ x.2 < d.size

theorem mem_rowOf {symbols : List Char} {found : List IdSet} {S : IdSet} {x : Char × Nat}
    (h : Settled m symbols found S) (hx : x ∈ rowOf m symbols found S) :
    x.1 ∈ symbols ∧ x.2 < found.length := by
  obtain ⟨c, hc, hx⟩ := List.mem_filterMap.1 hx
  obtain ⟨T, hT, rfl⟩ := Option.map_eq_some_iff.1 hx
  exact ⟨hc, List.idxOf_lt_length_of_mem (h c hc T hT)⟩

theorem orderly_ofNfa? {d : Logged Dfa} (hd : ofNfa? A m = some d) : d.value.Orderly A := by
  obtain ⟨_, _, hdocumented⟩ := documented_ofNfa? hd
  obtain ⟨s, hs, rfl⟩ := Option.map_eq_some_iff.1 (ofNfa?_eq A m ▸ hd)
  refine ⟨rfl, hdocumented.ids_eq, fun q hq x hx => ?_⟩
  have hstates : ((explore m A.toList s).toDfa m A.toList).states = _ := states_explore hs
  rw [hstates] at hq
  obtain ⟨⟨S, k⟩, hS, rfl⟩ := List.mem_map.1 hq
  have hsettled := settled_explore hs (List.fst_mem_of_mem_zipIdx hS)
  rw [size_toDfa]
  exact mem_rowOf hsettled hx

namespace Orderly

theorem id_eq (h : d.Orderly A) (hq : d.state? i = some q) : q.id = i := by
  have hlt : i < d.size := d.length_states ▸ (List.getElem?_eq_some_iff.1 hq).1
  have hid : (d.states.map State.id)[i]? = some q.id := by
    rw [List.getElem?_map, show d.states[i]? = some q from hq]
    rfl
  rw [h.ids_eq, List.getElem?_range hlt] at hid
  exact (Option.some.inj hid).symm

theorem id_lt (h : d.Orderly A) (hq : q ∈ d.states) : q.id < d.size := by
  have hid : q.id ∈ d.states.map State.id := List.mem_map_of_mem hq
  rw [h.ids_eq] at hid
  exact List.mem_range.1 hid

theorem of_next? (h : d.Orderly A) (hj : d.next? i c = some j) : c ∈ d.alphabet ∧ j < d.size := by
  obtain ⟨q, hq, hrow⟩ := Option.bind_eq_some_iff.1 hj
  obtain ⟨before, after, hrow, _⟩ := List.lookup_eq_some_iff.1 hrow
  refine h.row_over q (List.mem_of_getElem? hq) (c, j) ?_
  rw [hrow]
  exact List.mem_append_right before List.mem_cons_self

theorem next?_eq_none (h : d.Orderly A) (hc : c ∉ d.alphabet) : d.next? i c = none := by
  refine Option.eq_none_iff_forall_ne_some.2 fun j hj => ?_
  exact hc (h.of_next? hj).1

theorem isWhiteSpace_eq_false (h : d.Orderly A) (hc : c ∈ d.alphabet) : isWhiteSpace c = false := by
  rw [h.alphabet_eq] at hc
  have hseparator := (Alphabet.canBeSymbol_iff.1 (A.symbolic c hc)).2
  exact (Bool.or_eq_false_iff.1 hseparator).2

end Orderly

def marks (d : Dfa) : List (Nat × Bool) := d.states.map fun q => (q.id, q.isFinal)

theorem finals_eq_marks (d : Dfa) : d.finals = (d.marks.filter Prod.snd).map Prod.fst := by
  rw [marks, List.filter_map, List.map_map]
  rfl

theorem size_finals_of_marks_eq (h : d.marks = d'.marks) :
    d.size = d'.size ∧ d.finals = d'.finals := by
  constructor
  · have hlength := congrArg List.length h
    rwa [marks, marks, List.length_map, List.length_map, length_states, length_states] at hlength
  · rw [finals_eq_marks, finals_eq_marks, h]

end RegexAutomata.Dfa
