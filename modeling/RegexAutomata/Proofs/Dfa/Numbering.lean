import Mathlib.Data.List.Shortlex
import RegexAutomata.Proofs.Dfa.Trim

/-! The numbers of the subsets. Each subset is met by the first word that leads to it, by length and
then letter by letter, and the numbers follow the order of these words. -/
namespace RegexAutomata

abbrev Before (u v : List Char) : Prop := List.Shortlex (· < ·) u v

def AtMost (u v : List Char) : Prop := u = v ∨ Before u v

section words
variable {u v w : List Char} {c c' : Char}

theorem Before.trans (h : Before u v) (h' : Before v w) : Before u w := by
  rw [Before, List.shortlex_def] at *
  obtain h | ⟨hl, h⟩ := h
  · left
    omega
  · obtain h' | ⟨hl', h'⟩ := h'
    · left
      omega
    · right
      exact ⟨hl.trans hl', List.lt_trans h h'⟩

theorem AtMost.trans (h : AtMost u v) (h' : AtMost v w) : AtMost u w := by
  obtain rfl | h := h
  · exact h'
  · obtain rfl | h' := h'
    · exact .inr h
    · exact .inr (h.trans h')

theorem lex_append_letter {r : Char → Char → Prop} (hl : u.length = v.length)
    (h : List.Lex r u v) : List.Lex r (u ++ [c]) (v ++ [c']) := by
  induction h with
  | nil => simp at hl
  | cons _ ih => exact .cons (ih (Nat.succ.inj hl))
  | rel h => exact .rel h

/-- One more letter on both sides decides nothing. -/
theorem Before.append_letter (h : Before u v) (c c' : Char) : Before (u ++ [c]) (v ++ [c']) := by
  rw [Before, List.shortlex_def, List.length_append, List.length_append] at *
  obtain h | ⟨hl, h⟩ := h
  · left
    simpa using h
  · right
    exact ⟨congrArg (· + 1) hl, lex_append_letter hl h⟩

theorem before_of_letter (w : List Char) (h : c < c') : Before (w ++ [c]) (w ++ [c']) :=
  ((List.shortlex_singleton_iff c c').2 h).append_left w

theorem nil_before (w : List Char) (c : Char) : Before [] (w ++ [c]) := .of_length_lt (by simp)

theorem AtMost.append_letter (h : AtMost u v) (c : Char) : AtMost (u ++ [c]) (v ++ [c]) := by
  obtain rfl | h := h
  · exact .inl rfl
  · exact .inr (h.append_letter c c)

end words

theorem Alphabet.pairwise_lt (A : Alphabet) : A.toList.Pairwise (· < ·) := A.symbols.ascending

namespace Dfa
namespace Exploration
variable {m : Nfa} {symbols : List Char} {seed S T : IdSet} {e : Exploration} {w : List Char}
  {c : Char} {p : List (IdSet × List Char)} {x y : IdSet × List Char} {k : Nat}

def meetBy (p : List (IdSet × List Char)) (T : IdSet) (u : List Char) :
    List (IdSet × List Char) :=
  if (p.map Prod.fst).contains T then p else p ++ [(T, u)]

theorem meetBy_of_mem (h : T ∈ p.map Prod.fst) : meetBy p T w = p :=
  if_pos (List.contains_iff_mem.2 h)

theorem meetBy_of_notMem (h : T ∉ p.map Prod.fst) : meetBy p T w = p ++ [(T, w)] :=
  if_neg (mt List.contains_iff_mem.1 h)

theorem prefix_meetBy (p : List (IdSet × List Char)) (T : IdSet) (w : List Char) :
    p <+: meetBy p T w := by
  by_cases h : T ∈ p.map Prod.fst
  · exact (meetBy_of_mem h).symm ▸ List.prefix_refl p
  · exact (meetBy_of_notMem h).symm ▸ List.prefix_append _ _

theorem map_meetBy : (meetBy p T w).map Prod.fst = meet (p.map Prod.fst) T := by
  by_cases h : T ∈ p.map Prod.fst
  · rw [meetBy_of_mem h, meet, if_pos (List.contains_iff_mem.2 h)]
  · rw [meetBy_of_notMem h, meet, if_neg (mt List.contains_iff_mem.1 h), List.map_append]
    rfl

theorem mem_meetBy (h : x ∈ meetBy p T w) : x ∈ p ∨ x = (T, w) := by
  by_cases hT : T ∈ p.map Prod.fst
  · exact .inl (meetBy_of_mem hT ▸ h)
  · rw [meetBy_of_notMem hT] at h
    exact (List.mem_append.1 h).imp_right List.mem_singleton.1

def surveyWords (m : Nfa) (S : IdSet) (w : List Char) (p : List (IdSet × List Char)) :
    List Char → List (IdSet × List Char)
  | [] => p
  | c :: rest =>
    match m.successor? S c with
    | none => surveyWords m S w p rest
    | some T => surveyWords m S w (meetBy p T (w ++ [c])) rest

theorem surveyWords_of_none (h : m.successor? S c = none) :
    surveyWords m S w p (c :: symbols) = surveyWords m S w p symbols := by
  simp only [surveyWords, h]

theorem surveyWords_of_some (h : m.successor? S c = some T) :
    surveyWords m S w p (c :: symbols) =
      surveyWords m S w (meetBy p T (w ++ [c])) symbols := by
  simp only [surveyWords, h]

theorem prefix_surveyWords (m : Nfa) (S : IdSet) (w : List Char) (p : List (IdSet × List Char))
    (symbols : List Char) : p <+: surveyWords m S w p symbols := by
  induction symbols generalizing p with
  | nil => exact List.prefix_refl p
  | cons c symbols ih =>
    cases h : m.successor? S c with
    | none => simpa only [surveyWords_of_none h] using ih p
    | some T =>
      rw [surveyWords_of_some h]
      exact (prefix_meetBy p T _).trans (ih _)

theorem map_surveyWords (source : Nat) : (surveyWords m S w p symbols).map Prod.fst =
    (survey m source S (p.map Prod.fst) symbols).found := by
  induction symbols generalizing p with
  | nil => rfl
  | cons c symbols ih =>
    cases h : m.successor? S c with
    | none => rw [surveyWords_of_none h, survey_of_none h, ih]
    | some T => rw [surveyWords_of_some h, survey_found_of_some h, ih, map_meetBy]

theorem mem_surveyWords (h : x ∈ surveyWords m S w p symbols) :
    x ∈ p ∨ ∃ c ∈ symbols, m.successor? S c = some x.1 ∧ x.2 = w ++ [c] := by
  induction symbols generalizing p with
  | nil => exact .inl h
  | cons c symbols ih =>
    have htail : (∃ c ∈ symbols, m.successor? S c = some x.1 ∧ x.2 = w ++ [c]) →
        ∃ c' ∈ c :: symbols, m.successor? S c' = some x.1 ∧ x.2 = w ++ [c'] :=
      fun ⟨c', hc', hx⟩ => ⟨c', List.mem_cons_of_mem c hc', hx⟩
    cases hT : m.successor? S c with
    | none =>
      rw [surveyWords_of_none hT] at h
      exact (ih h).imp_right htail
    | some T =>
      rw [surveyWords_of_some hT] at h
      obtain h | h := ih h
      · obtain h | rfl := mem_meetBy h
        · exact .inl h
        · exact .inr ⟨c, List.mem_cons_self, hT, rfl⟩
      · exact .inr (htail h)

def InOrder (p : List (IdSet × List Char)) : Prop := p.Pairwise fun x y => Before x.2 y.2

theorem InOrder.before (h : InOrder p) (hy : y ∈ p.take k) (hx : p[k]? = some x) :
    Before y.2 x.2 := by
  have hdrop : x ∈ p.drop k := by
    refine List.mem_of_getElem? (i := 0) ?_
    rwa [List.getElem?_drop]
  have hp : p.Pairwise fun x y => Before x.2 y.2 := h
  exact hp.rel_of_mem_take_of_mem_drop hy hdrop

def Below (p : List (IdSet × List Char)) (w symbols : List Char) : Prop :=
  ∀ x ∈ p, ∀ c ∈ symbols, Before x.2 (w ++ [c])

theorem Below.tail (h : Below p w (c :: symbols)) : Below p w symbols :=
  fun x hx c' hc' => h x hx c' (List.mem_cons_of_mem c hc')

theorem Below.meetBy (h : Below p w (c :: symbols)) (hc : ∀ c' ∈ symbols, c < c') :
    Below (meetBy p T (w ++ [c])) w symbols := by
  intro x hx c' hc'
  obtain hx | rfl := mem_meetBy hx
  · exact h.tail x hx c' hc'
  · exact before_of_letter w (hc c' hc')

theorem InOrder.surveyWords (hp : InOrder p) (hsymbols : symbols.Pairwise (· < ·))
    (hbelow : Below p w symbols) : InOrder (surveyWords m S w p symbols) := by
  induction symbols generalizing p with
  | nil => exact hp
  | cons c symbols ih =>
    obtain ⟨hc, hsymbols⟩ := List.pairwise_cons.1 hsymbols
    cases hT : m.successor? S c with
    | none =>
      rw [surveyWords_of_none hT]
      exact ih hp hsymbols hbelow.tail
    | some T =>
      rw [surveyWords_of_some hT]
      refine ih ?_ hsymbols (hbelow.meetBy hc)
      by_cases h : T ∈ p.map Prod.fst
      · rwa [meetBy_of_mem h]
      · rw [meetBy_of_notMem h]
        refine List.pairwise_append.2 ⟨hp, List.pairwise_singleton _ _, fun x hx y hy => ?_⟩
        obtain rfl := List.mem_singleton.1 hy
        exact hbelow x hx c List.mem_cons_self

/-- Whatever the survey leads to has been met by then, and by no later word. -/
theorem exists_mem_surveyWords (hsymbols : symbols.Pairwise (· < ·)) (hbelow : Below p w symbols)
    (hc : c ∈ symbols) (hT : m.successor? S c = some T) :
    ∃ x ∈ surveyWords m S w p symbols, x.1 = T ∧ AtMost x.2 (w ++ [c]) := by
  induction symbols generalizing p with
  | nil => cases hc
  | cons c' symbols ih =>
    obtain ⟨hlt, hsymbols⟩ := List.pairwise_cons.1 hsymbols
    obtain rfl | hc := List.mem_cons.1 hc
    · rw [surveyWords_of_some hT]
      have hmet : ∃ x ∈ meetBy p T (w ++ [c]), x.1 = T ∧ AtMost x.2 (w ++ [c]) := by
        by_cases h : T ∈ p.map Prod.fst
        · obtain ⟨x, hx, hxT⟩ := List.mem_map.1 h
          exact ⟨x, (meetBy_of_mem h).symm ▸ hx, hxT, .inr (hbelow x hx c List.mem_cons_self)⟩
        · rw [meetBy_of_notMem h]
          exact ⟨(T, w ++ [c]), by simp, rfl, .inl rfl⟩
      obtain ⟨x, hx, hmet⟩ := hmet
      exact ⟨x, (prefix_surveyWords m S w _ symbols).subset hx, hmet⟩
    · cases hU : m.successor? S c' with
      | none =>
        rw [surveyWords_of_none hU]
        exact ih hsymbols hbelow.tail hc
      | some U =>
        rw [surveyWords_of_some hU]
        exact ih hsymbols (hbelow.meetBy hlt) hc

/-- The words by which the subsets were met. Each is one letter longer than that of a subset surveyed
before, and no letter behind such a word leads to a subset met later. -/
structure Labelled (m : Nfa) (symbols : List Char) (seed : IdSet) (e : Exploration)
    (p : List (IdSet × List Char)) : Prop where
  subsets : p.map Prod.fst = e.found
  first : p.head? = some (seed, [])
  reads : ∀ x ∈ p, m.readWord? symbols seed x.2 = some x.1
  inOrder : InOrder p
  grown : ∀ x ∈ p, x.2 = [] ∨ ∃ y ∈ p.take e.rows.length, ∃ c, x.2 = y.2 ++ [c]
  least : ∀ y ∈ p.take e.rows.length, ∀ c ∈ symbols, ∀ T, m.successor? y.1 c = some T →
    ∃ x ∈ p, x.1 = T ∧ AtMost x.2 (y.2 ++ [c])

theorem labelled_start (m : Nfa) (symbols : List Char) (seed : IdSet) :
    Labelled m symbols seed (start seed) [(seed, [])] where
  subsets := rfl
  first := rfl
  reads := List.forall_mem_singleton.2 rfl
  inOrder := List.pairwise_singleton _ _
  grown := List.forall_mem_singleton.2 (.inl rfl)
  least := nofun

/-- All words so far come before those that the next survey gives. -/
theorem Labelled.below (h : Labelled m symbols seed e p) (hx : p[e.rows.length]? = some x) :
    Below p x.2 symbols := by
  intro y hy c _
  obtain hnil | ⟨z, hz, c', hlonger⟩ := h.grown y hy
  · rw [hnil]
    exact nil_before x.2 c
  · rw [hlonger]
    exact (h.inOrder.before hz hx).append_letter c' c

theorem Labelled.follow (h : Labelled m symbols seed e p) (hsymbols : symbols.Pairwise (· < ·))
    (hx : p[e.rows.length]? = some x) :
    Labelled m symbols seed (e.follow m symbols x.1) (surveyWords m x.1 x.2 p symbols) := by
  have hbelow := h.below hx
  have hmem : x ∈ p := List.mem_of_getElem? hx
  have hlt : e.rows.length < p.length := (List.getElem?_eq_some_iff.1 hx).1
  obtain ⟨new, hnew⟩ := prefix_surveyWords m x.1 x.2 p symbols
  have htake : (surveyWords m x.1 x.2 p symbols).take (e.follow m symbols x.1).rows.length =
      p.take e.rows.length ++ [x] := by
    rw [← hnew, Exploration.follow, List.length_append, List.length_singleton,
      List.take_append_of_le_length hlt, List.take_add_one, hx]
    rfl
  refine ⟨?_, ?_, ?_, h.inOrder.surveyWords hsymbols hbelow, ?_, ?_⟩
  · rw [map_surveyWords e.rows.length, h.subsets]
    rfl
  · rw [← hnew, List.head?_append, h.first, Option.some_or]
  · intro y hy
    obtain hy | ⟨c, hc, hT, hword⟩ := mem_surveyWords hy
    · exact h.reads y hy
    · rw [hword, Nfa.readWord?_append, h.reads x hmem]
      simp [Nfa.readWord?, hc, hT]
  · intro y hy
    rw [htake]
    obtain hy | ⟨c, _, _, hword⟩ := mem_surveyWords hy
    · obtain hnil | ⟨z, hz, hlonger⟩ := h.grown y hy
      · exact .inl hnil
      · exact .inr ⟨z, List.mem_append_left [x] hz, hlonger⟩
    · exact .inr ⟨x, List.mem_append_right _ (List.mem_singleton_self x), c, hword⟩
  · intro y hy c hc T hT
    rw [htake] at hy
    obtain hy | hy := List.mem_append.1 hy
    · obtain ⟨z, hz, hmet⟩ := h.least y hy c hc T hT
      exact ⟨z, (prefix_surveyWords m x.1 x.2 p symbols).subset hz, hmet⟩
    · obtain rfl := List.mem_singleton.1 hy
      exact exists_mem_surveyWords hsymbols hbelow hc hT

theorem Labelled.run (h : Labelled m symbols seed e p) (hsymbols : symbols.Pairwise (· < ·))
    (rounds : Nat) : ∃ p', Labelled m symbols seed (e.run m symbols rounds) p' := by
  refine run_induction (P := fun e => ∃ p, Labelled m symbols seed e p) ?_ ⟨p, h⟩ rounds
  rintro e S hS ⟨p, h⟩
  have hp : (p.map Prod.fst)[e.rows.length]? = some S := by rwa [h.subsets]
  rw [List.getElem?_map] at hp
  obtain ⟨x, hx, rfl⟩ := Option.map_eq_some_iff.1 hp
  exact ⟨_, h.follow hsymbols hx⟩

theorem exists_labelled_explore (m : Nfa) (hsymbols : symbols.Pairwise (· < ·)) (s : Nat) :
    ∃ p, Labelled m symbols (m.epsilonClosure (.ofList [s])) (explore m symbols s) p :=
  (labelled_start m symbols _).run hsymbols _

end Exploration

open Exploration
variable {d : Dfa} {m : Nfa} {symbols : List Char} {s k : Nat} {T : IdSet} {v w w' : List Char}
  {p : List (IdSet × List Char)} {x : IdSet × List Char}

/-- The first of the words that are read from the start to the state `id`. -/
structure FirstWord (d : Dfa) (id : Nat) (w : List Char) : Prop where
  reads : d.readFrom? d.start w = some id
  first : ∀ v, d.readFrom? d.start v = some id → AtMost w v

theorem FirstWord.unique (h : d.FirstWord k w) (h' : d.FirstWord k w') : w = w' := by
  obtain heq | hlt := h.first w' h'.reads
  · exact heq
  · obtain heq | hgt := h'.first w h.reads
    · exact heq.symm
    · exact absurd hgt (Std.Asymm.asymm _ _ hlt)

section explore
variable (hs : m.start? = some s)
  (h : Labelled m symbols (m.epsilonClosure (.ofList [s])) (explore m symbols s) p)
include hs h

/-- No word comes before the one by which the subset it leads to was met. -/
theorem exists_atMost_of_readWord?
    (hv : m.readWord? symbols (m.epsilonClosure (.ofList [s])) v = some T) :
    ∃ x ∈ p, x.1 = T ∧ AtMost x.2 v := by
  induction v using List.reverseRecOn generalizing T with
  | nil =>
    have hT : m.epsilonClosure (.ofList [s]) = T := Option.some.inj hv
    exact ⟨_, List.mem_of_mem_head? h.first, hT, .inl rfl⟩
  | append_singleton u c ih =>
    rw [Nfa.readWord?_append] at hv
    obtain ⟨S, hS, hT⟩ := Option.bind_eq_some_iff.1 hv
    obtain ⟨y, hy, rfl, hyu⟩ := ih hS
    have hsurveyed : y ∈ p.take (explore m symbols s).rows.length := by
      rwa [rows_explore hs, ← h.subsets, List.length_map, List.take_length]
    by_cases hc : c ∈ symbols
    · have hnext : m.successor? y.1 c = some T := by
        simpa [Nfa.readWord?, hc] using hT
      obtain ⟨x, hx, hxT, hxy⟩ := h.least y hsurveyed c hc T hnext
      exact ⟨x, hx, hxT, hxy.trans (hyu.append_letter c)⟩
    · simp [Nfa.readWord?, hc] at hT

theorem firstWord_of_labelled (hx : p[k]? = some x) :
    ((explore m symbols s).toDfa m symbols).FirstWord k x.2 := by
  have hdistinct : (explore m symbols s).found.Nodup := (sound_explore hs).distinct
  have hfound : (explore m symbols s).found[k]? = some x.1 := by
    rw [← h.subsets, List.getElem?_map, hx]
    rfl
  have hmem : x ∈ p := List.mem_of_getElem? hx
  refine ⟨?_, fun v hv => ?_⟩
  · refine (readFrom?_start hs x.2).trans ?_
    rw [h.reads x hmem, Option.map_some, Option.some_inj]
    obtain ⟨hlt, hget⟩ := List.getElem?_eq_some_iff.1 hfound
    rw [← hget, hdistinct.idxOf_getElem]
  · have hv' := (readFrom?_start hs v).symm.trans hv
    obtain ⟨T, hT, hk⟩ := Option.map_eq_some_iff.1 hv'
    have hget := getElem?_idxOf (mem_found_of_readWord? hs (first_found hs).1 hT)
    obtain ⟨y, hy, hyT, hyv⟩ := exists_atMost_of_readWord? hs h hT
    rw [hk, hfound, ← hyT, Option.some_inj] at hget
    have hxy : x = y := by
      rw [← h.subsets] at hdistinct
      exact List.inj_on_of_nodup_map hdistinct hmem hy hget
    rwa [hxy]

end explore

/-- States are numbered in the order of the first words that enter them, from the empty word on. -/
theorem firstWords_ascending (A : Alphabet) (m : Nfa) (s : Nat) (hs : m.start? = some s) :
    ∃ d, ofNfa? A m = some d ∧ d.value.start = 0 ∧ d.value.FirstWord 0 [] ∧
      (∀ q ∈ d.value.states, ∃ w, d.value.FirstWord q.id w) ∧
      ∀ q ∈ d.value.states, ∀ q' ∈ d.value.states, q.id < q'.id →
        ∀ w w', d.value.FirstWord q.id w → d.value.FirstWord q'.id w' → Before w w' := by
  obtain ⟨log, hd⟩ := exists_ofNfa?_eq A hs
  obtain ⟨p, hp⟩ := exists_labelled_explore m A.pairwise_lt s
  have hlabel : ∀ q ∈ ((explore m A.toList s).toDfa m A.toList).states,
      ∃ x, p[q.id]? = some x := by
    intro q hq
    have hfound : (explore m A.toList s).found[q.id]? = some q.origin := getElem?_found hs hq
    rw [← hp.subsets, List.getElem?_map] at hfound
    obtain ⟨x, hx, _⟩ := Option.map_eq_some_iff.1 hfound
    exact ⟨x, hx⟩
  refine ⟨_, hd, rfl, ?_, ?_, ?_⟩
  · have hfirst := hp.first
    rw [List.head?_eq_getElem?] at hfirst
    exact firstWord_of_labelled hs hp hfirst
  · intro q hq
    obtain ⟨x, hx⟩ := hlabel q hq
    exact ⟨x.2, firstWord_of_labelled hs hp hx⟩
  · intro q hq q' hq' hlt w w' hw hw'
    obtain ⟨x, hx⟩ := hlabel q hq
    obtain ⟨x', hx'⟩ := hlabel q' hq'
    obtain rfl := hw.unique (firstWord_of_labelled hs hp hx)
    obtain rfl := hw'.unique (firstWord_of_labelled hs hp hx')
    have hmem : x ∈ p.take q'.id := List.mem_of_getElem? (by rwa [List.getElem?_take_of_lt hlt])
    exact hp.inOrder.before hmem hx'

def crossing : Nfa where
  states := .ofList
    [⟨0, true, false, [⟨.symbol 'b', 1⟩, ⟨.symbol 'a', 2⟩]⟩, ⟨1, false, false, [⟨.symbol 'a', 2⟩]⟩,
      ⟨2, false, true, [⟨.symbol 'b', 1⟩]⟩]
  entry := 0
  exit := 2

theorem firstWords_ascending_crossing : crossing.start? = some 0 ∧
    ∃ d, ofNfa? (.extend .empty ['b', 'a']) crossing = some d ∧ d.value.FirstWord 0 [] ∧
      ∃ w w', d.value.FirstWord 1 w ∧ d.value.FirstWord 2 w' ∧ Before w w' := by
  have hs : crossing.start? = some 0 := by decide
  obtain ⟨d, hd, _, hfirst, hword, hascending⟩ :=
    firstWords_ascending (.extend .empty ['b', 'a']) crossing 0 hs
  have hids : (ofNfa? (.extend .empty ['b', 'a']) crossing).map
      (fun d => d.value.states.map State.id) = some [0, 1, 2] := by decide
  rw [hd, Option.map_some, Option.some_inj] at hids
  have hmem : ∀ k ∈ [0, 1, 2], ∃ q ∈ d.value.states, q.id = k := by
    intro k hk
    rw [← hids] at hk
    exact List.mem_map.1 hk
  obtain ⟨q, hq, hqid⟩ := hmem 1 (by decide)
  obtain ⟨q', hq', hqid'⟩ := hmem 2 (by decide)
  obtain ⟨w, hw⟩ := hword q hq
  obtain ⟨w', hw'⟩ := hword q' hq'
  have hbefore := hascending q hq q' hq' (by rw [hqid, hqid']; decide) w w' hw hw'
  rw [hqid] at hw
  rw [hqid'] at hw'
  exact ⟨hs, d, hd, hfirst, w, w', hw, hw', hbefore⟩

end Dfa
end RegexAutomata
