import RegexAutomata.Alphabet.Registry
import RegexAutomata.Proofs.Alphabet

/-! What requests do to an alphabet. One that fails changes nothing, since whatever passes the check
in front of the symbols of a declaration is added without a fault; so a registration is the same as a
declaration. Which alphabet is left depends on its characters only, and it is read back from its
text. -/
namespace RegexAutomata.Alphabet
variable {A B : Alphabet} {c x : Char} {t : List Char} {e : Error} {r : Request}

theorem canBeSymbol_iff :
    canBeSymbol c = true ↔ isReserved c = false ∧ isSeparator c = false := by
  rw [canBeSymbol, Bool.and_eq_true, Bool.not_eq_true', Bool.not_eq_true']

theorem insert_of_canBeSymbol (h : canBeSymbol c = true) :
    A.insert c = .ok (A.add c h, !A.contains c) := by
  rw [insert, dif_pos h]

/-- Characters that can be symbols are added one by one as they are added at once. -/
theorem insertAll_eq (h : ∀ x ∈ t, canBeSymbol x = true) : A.insertAll t = (A.extend t, .ok ()) := by
  induction t generalizing A with
  | nil => rfl
  | cons c t ih =>
    obtain ⟨hc, ht⟩ := List.forall_mem_cons.1 h
    simp only [insertAll, extend, insert_of_canBeSymbol hc, dif_pos hc]
    exact ih ht

theorem find?_symbols (t : List Char) :
    (t.filter fun c => !isSeparator c).find? isReserved = t.find? isReserved := by
  rw [List.find?_filter]
  congr 1
  funext x
  cases hx : isReserved x with
  | false => simp
  | true => simp [isSeparator_of_isReserved hx]

theorem extend_symbols (A : Alphabet) (t : List Char) :
    A.extend (t.filter fun c => !isSeparator c) = A.extend t := by
  refine ext_contains fun x => ?_
  rw [contains_extend, contains_extend, List.mem_filter]
  refine or_congr_right (and_congr_left fun hx => and_iff_left ?_)
  rw [(canBeSymbol_iff.1 hx).2]
  rfl

theorem register_eq (A : Alphabet) (t : List Char) :
    A.register t = match A.declare t with
      | .ok B => (B, .ok ())
      | .error e => (A, .error e) := by
  rw [register, declare, find?_symbols]
  cases hfind : t.find? isReserved with
  | some c => rfl
  | none =>
    have hreserved : ∀ x ∈ t, isReserved x = false := by simpa using hfind
    have hsymbols : ∀ x ∈ t.filter fun c => !isSeparator c, canBeSymbol x = true := by
      intro x hx
      obtain ⟨hxt, hseparator⟩ := List.mem_filter.1 hx
      exact canBeSymbol_iff.2 ⟨hreserved x hxt, by simpa using hseparator⟩
    simp only [insertAll_eq hsymbols, extend_symbols]

theorem parse_eq_ofText (t : List Char) : parse t = ofText t := by
  rw [parse, register_eq, ofText]
  cases empty.declare t <;> rfl

/-- A declaration is refused for the first reserved character in it. -/
theorem register_eq_error_iff : (A.register t).2 = .error e ↔
    ∃ before c after, t = before ++ c :: after ∧ (∀ x ∈ before, isReserved x = false) ∧
      isReserved c = true ∧ e = .reservedSymbol c := by
  have hfind : (A.register t).2 = .error e ↔
      ∃ c, t.find? isReserved = some c ∧ e = .reservedSymbol c := by
    rw [register_eq, declare]
    cases t.find? isReserved <;> simp [eq_comm]
  rw [hfind]
  constructor
  · rintro ⟨c, hc, he⟩
    obtain ⟨hreserved, before, after, ht, hbefore⟩ := List.find?_eq_some_iff_append.1 hc
    exact ⟨before, c, after, ht, by simpa using hbefore, hreserved, he⟩
  · rintro ⟨before, c, after, ht, hbefore, hreserved, he⟩
    refine ⟨c, List.find?_eq_some_iff_append.2 ⟨hreserved, before, after, ht, ?_⟩, he⟩
    simpa using hbefore

theorem register_eq_ok_iff : (A.register t).2 = .ok () ↔ ∀ x ∈ t, isReserved x = false := by
  rw [register_eq, declare]
  cases hfind : t.find? isReserved with
  | some c =>
    have hc := List.find?_some hfind
    have hmem := List.mem_of_find?_eq_some hfind
    simp only [reduceCtorEq, false_iff]
    intro h
    rw [h c hmem] at hc
    cases hc
  | none => simpa using hfind

/-- A request that fails leaves the alphabet as it was. -/
theorem serve_of_error (h : (A.serve r).2 = .error e) : (A.serve r).1 = A := by
  cases r with
  | parse t | fromText t =>
    simp only [serve] at h ⊢
    cases hparse : parse t with
    | ok B => simp [hparse] at h
    | error e => rfl
  | register t =>
    simp only [serve, register_eq] at h ⊢
    cases hdeclare : A.declare t with
    | ok B => simp [hdeclare, Except.map] at h
    | error e => rfl
  | insert c =>
    simp only [serve] at h ⊢
    cases hinsert : A.insert c with
    | ok result => simp [hinsert] at h
    | error e => rfl

section contains

def Declares (t : List Char) (c : Char) : Prop :=
  (∀ x ∈ t, isReserved x = false) ∧ c ∈ t ∧ isSeparator c = false

theorem contains_register :
    (A.register t).1.contains c = true ↔ A.contains c = true ∨ Declares t c := by
  by_cases h : ∀ x ∈ t, isReserved x = false
  · have hfind : t.find? isReserved = none := by simpa using h
    simp only [register_eq, declare, hfind, contains_extend]
    refine or_congr_right ⟨fun hextends => ?_, fun hdeclares => ?_⟩
    · exact ⟨h, hextends.1, (canBeSymbol_iff.1 hextends.2).2⟩
    · exact ⟨hdeclares.2.1, canBeSymbol_iff.2 ⟨h c hdeclares.2.1, hdeclares.2.2⟩⟩
  · obtain ⟨e, he⟩ : ∃ e, A.declare t = .error e := by
      cases hfind : t.find? isReserved with
      | some c => exact ⟨_, by rw [declare, hfind]⟩
      | none => exact (h (by simpa using hfind)).elim
    simp [register_eq, he, Declares, h]

theorem contains_after_register (A : Alphabet) (ts : List (List Char)) :
    (A.after (ts.map .register)).contains c = true ↔
      A.contains c = true ∨ ∃ t ∈ ts, Declares t c := by
  induction ts generalizing A with
  | nil => simp [after]
  | cons t ts ih =>
    have hstep : A.after ((t :: ts).map .register) = (A.register t).1.after (ts.map .register) := rfl
    rw [hstep, ih, contains_register, or_assoc]
    simp

end contains

section text

/-- Between the braces of a text stand the symbols, parted by commas and blanks. -/
theorem mem_intercalate {l : List Char} :
    x ∈ List.intercalate [',', ' '] (l.map fun c => [c]) ↔
      x ∈ l ∨ (1 < l.length ∧ (x = ',' ∨ x = ' ')) := by
  induction l with
  | nil => simp
  | cons c l ih =>
    cases l with
    | nil => simp
    | cons d l =>
      have hbody : List.intercalate [',', ' '] ((c :: d :: l).map fun c => [c]) =
          c :: ',' :: ' ' :: List.intercalate [',', ' '] ((d :: l).map fun c => [c]) :=
        List.intercalate_cons_cons
      rw [hbody, List.mem_cons, List.mem_cons, List.mem_cons, ih, List.mem_cons (a := x) (b := c)]
      simp only [List.length_cons]
      grind

theorem ofText_symbols (A : Alphabet) :
    ofText (List.intercalate [',', ' '] (A.toList.map fun c => [c])) = .ok A := by
  have hsymbol : ∀ x ∈ A.toList, canBeSymbol x = true := A.symbolic
  refine ofText_eq_ok.2 ⟨fun x hx => ?_, ext_contains fun x => ?_⟩
  · rcases mem_intercalate.1 hx with hx | ⟨_, rfl | rfl⟩
    · exact (canBeSymbol_iff.1 (hsymbol x hx)).1
    · rfl
    · rfl
  · rw [contains_extend, contains, List.contains_iff_mem]
    constructor
    · exact fun hx => .inr ⟨mem_intercalate.2 (.inl hx), hsymbol x hx⟩
    · rintro (hx | ⟨hx, hcan⟩)
      · cases hx
      · rcases mem_intercalate.1 hx with hx | ⟨_, rfl | rfl⟩
        · exact hx
        · cases hcan
        · cases hcan

end text

structure Consistent (A : Alphabet) : Prop where
  symbols : ∀ c, A.contains c = true → isReserved c = false ∧ c ≠ ',' ∧ isWhiteSpace c = false
  atomic : ∀ r e, (A.serve r).2 = .error e → (A.serve r).1 = A
  refused_iff : ∀ t e, (A.register t).2 = .error e ↔
    ∃ before c after, t = before ++ c :: after ∧ (∀ x ∈ before, isReserved x = false) ∧
      isReserved c = true ∧ e = .reservedSymbol c
  registered : ∀ t, (A.register t).2 = .ok () → ∀ c, ((A.register t).1.contains c = true ↔
    A.contains c = true ∨ (c ∈ t ∧ isSeparator c = false))
  order_immaterial : ∀ ts ts' : List (List Char),
    (∀ c, (∃ t ∈ ts, Declares t c) ↔ ∃ t ∈ ts', Declares t c) →
      A.after (ts.map .register) = A.after (ts'.map .register)
  readable : ∃ body, A.text = '\x7b' :: body ++ ['\x7d'] ∧ parse body = .ok A

theorem consistent (A : Alphabet) : A.Consistent where
  symbols := by
    intro c hc
    have hsymbol := A.symbolic c (List.contains_iff_mem.1 hc)
    obtain ⟨hreserved, hseparator⟩ := canBeSymbol_iff.1 hsymbol
    rw [isSeparator, Bool.or_eq_false_iff, beq_eq_false_iff_ne] at hseparator
    exact ⟨hreserved, hseparator⟩
  atomic := fun r e => serve_of_error
  refused_iff := fun t e => register_eq_error_iff
  registered := by
    intro t ht c
    rw [contains_register, Declares]
    exact or_congr_right (and_iff_right (register_eq_ok_iff.1 ht))
  order_immaterial := by
    intro ts ts' h
    refine ext_contains fun c => ?_
    rw [contains_after_register, contains_after_register, h c]
  readable := ⟨_, rfl, (parse_eq_ofText _).trans (ofText_symbols A)⟩

/-- Whatever requests are served, the alphabet is consistent, and it depends on no more than the
characters that it has come to contain. -/
theorem consistent_after (rs rs' : List Request) :
    (empty.after rs).Consistent ∧
    ((∀ c, (empty.after rs).contains c = true ↔ (empty.after rs').contains c = true) →
      empty.after rs = empty.after rs') :=
  ⟨consistent _, ext_contains⟩

/-- Braces can be symbols, and a declaration with a star in it adds none of its letters. -/
theorem consistent_after_braces :
    ∃ A, A = empty.after [.parse ['b', ',', '\x7d'], .insert ',', .register ['c', '*'],
        .fromText ['('], .register ['\x7b']] ∧
      A = empty.after [.register [' ', '\x7b', 'b', '\x7d']] ∧
      A.toList = ['b', '\x7b', '\x7d'] ∧ (A.serve (.insert ' ')).1 = A ∧
      (A.register ['d', ' ', '+', '(']).2 = .error (.reservedSymbol '+') ∧
      ((A.register ['d', ' ']).1.contains 'd' = true) ∧
      A.after [.register ['x'], .register ['y']] = A.after [.register ['y'], .register ['x']] := by
  let requests : List Request :=
    [.parse ['b', ',', '\x7d'], .insert ',', .register ['c', '*'], .fromText ['('],
      .register ['\x7b']]
  have hlist : (empty.after requests).toList = ['b', '\x7b', '\x7d'] := by decide
  have hlist' : (empty.after [.register [' ', '\x7b', 'b', '\x7d']]).toList =
      ['b', '\x7b', '\x7d'] := by decide
  obtain ⟨hconsistent, hsame⟩ := consistent_after requests [.register [' ', '\x7b', 'b', '\x7d']]
  refine ⟨_, rfl, hsame fun c => ?_, hlist, ?_, ?_, ?_, ?_⟩
  · rw [contains, contains, hlist, hlist']
  · exact hconsistent.atomic (.insert ' ') (.reservedSymbol ' ') rfl
  · have hbefore : ∀ x ∈ ['d', ' '], isReserved x = false := by simp [isReserved, reserved]
    exact (hconsistent.refused_iff _ _).2 ⟨_, '+', ['('], rfl, hbefore, by decide, rfl⟩
  · exact (hconsistent.registered _ rfl 'd').2 (.inr (by decide))
  · exact hconsistent.order_immaterial [['x'], ['y']] [['y'], ['x']] fun c => by simp [or_comm]

end RegexAutomata.Alphabet
