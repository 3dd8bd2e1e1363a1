import Mathlib.Order.WellFounded
import RegexAutomata.Expression.Rules
import RegexAutomata.Proofs.Expression.Faultless

/-! The scan reports what the rules say. It has the place of a character right as long as no
character in front of it breaks a rule, and it stops at the first one that does. -/
namespace RegexAutomata.Expression
variable {A : Alphabet} {c : Char} {t u v : List Char} {f g : Fault}

/-- A character breaks a rule in one way. -/
theorem Breach.eq_of_rank_eq (hf : Breach A u c v f) (hg : Breach A u c v g)
    (h : f.rank = g.rank) : f = g := by
  cases hf with
  | operatorAfter _ hb _ =>
    cases hg with
    | operatorAfter _ hb' _ =>
      rw [hb] at hb'
      cases hb'
      rfl
    | _ => cases h
  | _ => cases hg <;> first | rfl | cases h

theorem Breach.exists_least (h : Breach A u c v f) :
    ∃ g, Breach A u c v g ∧ ∀ g', Breach A u c v g' → g.rank ≤ g'.rank := by
  obtain ⟨g, hg, hmin⟩ := WellFounded.has_min (measure Fault.rank).wf (Breach A u c v) ⟨f, h⟩
  exact ⟨g, hg, fun g' hg' => Nat.not_lt.1 (hmin g' hg')⟩

def placeOf (u : List Char) (c : Char) (v : List Char) : Place :=
  ⟨u.length, u.count '(' - u.count ')', u.getLast?, c, v.isEmpty⟩

theorem awaitsOperand_placeOf_eq_some {b : Char} : (placeOf u c v).awaitsOperand = some b ↔
    u.getLast? = some b ∧ b ∈ ['(', '+', '.'] := by
  simp [placeOf, Place.awaitsOperand, Option.filter_eq_some_iff]
  grind

theorem awaitsOperand_placeOf_eq_none : (placeOf u c v).awaitsOperand = none ↔
    ∀ b, u.getLast? = some b → b ∉ ['(', '+', '.'] :=
  Place.awaitsOperand_eq_none_iff

theorem allows_of_isOperator (h : (role c).isOperator = true) : A.allows c = true := by
  have hr : isReserved c = true := by
    obtain rfl | rfl | rfl := isOperator_iff.1 h <;> rfl
  rw [Alphabet.allows, hr, Bool.or_true]

theorem ne_closing_of_isOperator (h : (role c).isOperator = true) : c ≠ ')' := by
  rintro rfl
  cases h

/-- An operator that has an operand in front of it. -/
theorem fault?_placeOf_operator (hop : (role c).isOperator = true)
    (h : (placeOf u c v).awaitsOperand = none) (A : Alphabet) : (placeOf u c v).fault? A =
      if c = '*' ∧ u.getLast? = some '*' then some (.stackedStar u.length)
      else if u = [] then some (.leadingOperator c)
      else if v = [] ∧ c ≠ '*' then some (.trailingOperator c)
      else none := by
  have hchar : (placeOf u c v).char = c := rfl
  have hallows : A.allows c = true := allows_of_isOperator hop
  simp only [Place.fault?, hchar, hallows, hop, ne_closing_of_isOperator hop, h]
  simp [placeOf]

/-- The rule that comes first among those that a character breaks is the one that is reported. Most
rules exclude each other, and only the last one has to give way. -/
theorem fault?_placeOf_of_breach (hf : Breach A u c v f)
    (hmin : ∀ g, Breach A u c v g → f.rank ≤ g.rank) : (placeOf u c v).fault? A = some f := by
  cases hf with
  | invalidCharacter hcontains hreserved =>
    simp [Place.fault?, placeOf, Alphabet.allows, hcontains, hreserved]
  | unmatchedClose hc hle =>
    subst hc
    have hallows : A.allows ')' = true := by simp [Alphabet.allows, isReserved, reserved]
    simp [Place.fault?, placeOf, hallows, Nat.sub_eq_zero_of_le hle]
  | operatorAfter hop hb hawaits =>
    have hchar : (placeOf u c v).char = c := rfl
    have hallows : A.allows c = true := allows_of_isOperator hop
    have hplace : (placeOf u c v).awaitsOperand = some _ :=
      awaitsOperand_placeOf_eq_some.2 ⟨hb, hawaits⟩
    simp only [Place.fault?, hchar, hallows, hop, ne_closing_of_isOperator hop, hplace]
    rfl
  | stackedStar hc hb =>
    rw [fault?_placeOf_operator (hc ▸ rfl) (awaitsOperand_placeOf_eq_none.2 ?_), if_pos ⟨hc, hb⟩]
    intro b hb'
    rw [hb] at hb'
    cases hb'
    decide
  | leadingOperator hop hu =>
    subst hu
    rw [fault?_placeOf_operator hop (awaitsOperand_placeOf_eq_none.2 (by simp))]
    simp
  | trailingOperator hc hv =>
    have hop : (role c).isOperator = true := isOperator_iff.2 (hc.imp_right .inl)
    have hstar : c ≠ '*' := by obtain rfl | rfl := hc <;> decide
    have hu : u ≠ [] := fun hu =>
      absurd (hmin _ (.leadingOperator hop hu)) (show ¬ 5 ≤ 4 by decide)
    rw [fault?_placeOf_operator hop (awaitsOperand_placeOf_eq_none.2 ?_)]
    · simp [hstar, hu, hv]
    · intro b hb hawaits
      exact absurd (hmin _ (.operatorAfter hop hb hawaits)) (show ¬ 5 ≤ 2 by decide)

theorem fault?_placeOf_eq_none (h : ∀ g, ¬ Breach A u c v g) :
    (placeOf u c v).fault? A = none := by
  refine Place.fault?_eq_none_iff.2 ⟨?_, fun hc hd => ?_, fun hop => ⟨?_, fun hc hb => ?_, ?_, ?_⟩⟩
  · by_contra hA
    simp only [placeOf, Alphabet.allows, Bool.or_eq_true, not_or, Bool.not_eq_true] at hA
    exact h _ (.invalidCharacter hA.1 hA.2)
  · exact h _ (.unmatchedClose hc (Nat.sub_eq_zero_iff_le.1 hd))
  · exact awaitsOperand_placeOf_eq_none.2 fun b hb hawaits =>
      h _ (.operatorAfter hop hb hawaits)
  · exact h _ (.stackedStar hc hb)
  · exact fun hu => h _ (.leadingOperator hop (List.length_eq_zero_iff.1 hu))
  · intro hv
    by_contra hstar
    have hc : c = '+' ∨ c = '.' := (or_assoc.2 (isOperator_iff.1 hop)).resolve_right hstar
    exact h _ (.trailingOperator hc (List.isEmpty_iff.1 hv))

/-- The first rule that `c` breaks is reported, if there is one. -/
theorem fault?_placeOf_eq_some_iff : (placeOf u c v).fault? A = some f ↔
    Breach A u c v f ∧ ∀ g, Breach A u c v g → f.rank ≤ g.rank := by
  constructor
  · intro h
    by_cases hex : ∃ g, Breach A u c v g
    · obtain ⟨g, hg⟩ := hex
      obtain ⟨g, hg, hmin⟩ := hg.exists_least
      rw [fault?_placeOf_of_breach hg hmin] at h
      cases h
      exact ⟨hg, hmin⟩
    · rw [fault?_placeOf_eq_none (not_exists.1 hex)] at h
      cases h
  · intro ⟨hf, hmin⟩
    exact fault?_placeOf_of_breach hf hmin

theorem not_breach_of_fault? (h : (placeOf u c v).fault? A = none) : ¬ Breach A u c v g := by
  intro hg
  obtain ⟨g, hg, hmin⟩ := hg.exists_least
  rw [fault?_placeOf_of_breach hg hmin] at h
  cases h

def KeptBy (A : Alphabet) (u v : List Char) : Prop :=
  ∀ x d y g, u ++ v = x ++ d :: y → x.length < u.length → ¬ Breach A x d y g

theorem keptBy_snoc : KeptBy A (u ++ [c]) v ↔ KeptBy A u (c :: v) ∧ ∀ g, ¬ Breach A u c v g := by
  have happend : u ++ [c] ++ v = u ++ c :: v := by simp
  constructor
  · intro h
    refine ⟨fun x d y g hx hlt => h x d y g (happend.trans hx) (by simp; omega), fun g => ?_⟩
    exact h u c v g happend (by simp)
  · intro ⟨h, hc⟩ x d y g hx hlt
    rw [happend] at hx
    obtain hlt | hlen := Nat.lt_succ_iff_lt_or_eq.1 (by simpa using hlt)
    · exact h x d y g hx hlt
    · obtain ⟨rfl, hcons⟩ := List.append_inj hx hlen.symm
      cases hcons
      exact hc g

/-- As long as no rule is broken, no more groups are closed than opened. -/
theorem KeptBy.count_le (h : KeptBy A u v) : u.count ')' ≤ u.count '(' := by
  induction u using List.reverseRecOn generalizing v with
  | nil => exact Nat.le_refl _
  | append_singleton u c ih =>
    obtain ⟨hu, hc⟩ := keptBy_snoc.1 h
    have hle := ih hu
    rw [List.count_append, List.count_append, List.count_singleton, List.count_singleton]
    by_cases hclose : c = ')'
    · have hlt : u.count ')' < u.count '(' :=
        Nat.lt_of_not_le fun hle => hc _ (.unmatchedClose hclose hle)
      simp [hclose]
      omega
    · simp [hclose]
      omega

def faultBehind? (A : Alphabet) (u v : List Char) : Option Fault :=
  faultFrom? A u.length (u.count '(' - u.count ')') u.getLast? v

theorem depthAfter_placeOf (h : u.count ')' ≤ u.count '(') :
    (placeOf u c v).depthAfter = (u ++ [c]).count '(' - (u ++ [c]).count ')' := by
  simp only [Place.depthAfter, placeOf, List.count_append, List.count_singleton]
  by_cases hopen : c = '('
  · simp [hopen]
    omega
  · by_cases hclose : c = ')'
    · simp [hclose]
      omega
    · simp [hopen, hclose]

theorem faultBehind?_cons (h : u.count ')' ≤ u.count '(') :
    faultBehind? A u (c :: v) = ((placeOf u c v).fault? A).or (faultBehind? A (u ++ [c]) v) := by
  simp only [faultBehind?, ← depthAfter_placeOf (v := v) h, List.length_append,
    List.length_singleton, List.getLast?_concat]
  rfl

/-- A scan that has met no breach yet stops at the first one, or gets to the end. -/
theorem KeptBy.stops_or_ends (hk : KeptBy A u v) :
    (∃ x c y f, u ++ v = x ++ c :: y ∧ KeptBy A x (c :: y) ∧ (placeOf x c y).fault? A = some f ∧
      faultBehind? A u v = some f) ∨
    (KeptBy A (u ++ v) [] ∧ faultBehind? A u v = faultBehind? A (u ++ v) []) := by
  induction v generalizing u with
  | nil =>
    rw [List.append_nil]
    exact .inr ⟨hk, rfl⟩
  | cons c v ih =>
    rw [faultBehind?_cons hk.count_le]
    cases hc : (placeOf u c v).fault? A with
    | some f => exact .inl ⟨u, c, v, f, rfl, hk, hc, rfl⟩
    | none => simpa using ih (keptBy_snoc.2 ⟨hk, fun _ => not_breach_of_fault? hc⟩)

theorem keptBy_nil (A : Alphabet) (t : List Char) : KeptBy A [] t :=
  fun _ _ _ _ _ hlt => (Nat.not_lt_zero _ hlt).elim

theorem unbroken_iff_keptBy : Unbroken A t ↔ KeptBy A t [] := by
  simp only [Unbroken, KeptBy, List.append_nil]
  constructor
  · intro h x d y g hx _
    exact h x d y g hx
  · intro h x d y g hx
    refine h x d y g hx ?_
    rw [hx]
    simp

theorem fault?_eq_faultBehind? (h : t ≠ []) : fault? A t = faultBehind? A [] t := by
  cases t with
  | nil => exact absurd rfl h
  | cons c t => rfl

theorem faultBehind?_nil (A : Alphabet) (t : List Char) : faultBehind? A t [] =
    if t.count '(' - t.count ')' = 0 then none
    else some (.unclosedOpen (t.count '(' - t.count ')')) := rfl

theorem firstFailure_of_fault? (h : fault? A t = some f) : FirstFailure A t f := by
  by_cases hne : t = []
  · subst hne
    cases h
    exact .empty rfl
  · rw [fault?_eq_faultBehind? hne] at h
    obtain ⟨u, c, v, g, rfl, hk, hc, hg⟩ | ⟨hk, hend⟩ := (keptBy_nil A t).stops_or_ends
    · obtain rfl : g = f := Option.some.inj (hg.symm.trans h)
      obtain ⟨hbreach, hmin⟩ := fault?_placeOf_eq_some_iff.1 hc
      refine .breach rfl hbreach hmin fun x d y g hx hg => ?_
      exact Nat.le_of_not_lt fun hlt => hk x d y g hx hlt hg
    · rw [hend, List.nil_append, faultBehind?_nil] at h
      split at h
      · cases h
      · cases h
        exact .leftOpen (unbroken_iff_keptBy.2 hk) (by omega)

theorem FirstFailure.unique (hf : FirstFailure A t f) (hg : FirstFailure A t g) : f = g := by
  cases hf with
  | empty ht =>
    subst ht
    cases hg with
    | empty _ => rfl
    | breach ht _ _ _ => simp at ht
    | leftOpen _ hlt => cases hlt
  | @breach u v c _ ht hf hmin hfirst =>
    cases hg with
    | empty ht' =>
      rw [ht'] at ht
      simp at ht
    | @breach u' v' c' _ ht' hg hmin' hfirst' =>
      have hlen : u.length = u'.length :=
        Nat.le_antisymm (hfirst u' c' v' g ht' hg) (hfirst' u c v f ht hf)
      obtain ⟨rfl, hcons⟩ := List.append_inj (ht.symm.trans ht') hlen
      cases hcons
      exact hf.eq_of_rank_eq hg (Nat.le_antisymm (hmin g hg) (hmin' f hf))
    | leftOpen hunbroken _ => exact absurd hf (hunbroken u c v f ht)
  | leftOpen hunbroken hlt =>
    cases hg with
    | empty ht =>
      subst ht
      cases hlt
    | @breach u v c _ ht hg _ _ => exact absurd hg (hunbroken u c v g ht)
    | leftOpen _ _ => rfl

/-- Two neighbours, told by what is in front of the second one. -/
theorem infix_pair_iff {b : Char} :
    [b, c] <:+: t ↔ ∃ u v, t = u ++ c :: v ∧ u.getLast? = some b := by
  constructor
  · intro ⟨x, y, ht⟩
    exact ⟨x ++ [b], y, by simp [← ht], by simp⟩
  · intro ⟨u, v, ht, hb⟩
    obtain ⟨x, rfl⟩ := List.getLast?_eq_some_iff.1 hb
    exact ⟨x, v, by simp [ht]⟩

theorem Faultless.unbroken (h : Faultless A t) : Unbroken A t := by
  intro u c v f ht hf
  cases hf with
  | invalidCharacter hcontains hreserved =>
    have hmem : c ∈ t := ht ▸ List.mem_append_cons_self
    obtain hA | hr := h.allowed c hmem
    · rw [hA] at hcontains
      cases hcontains
    · rw [hr] at hreserved
      cases hreserved
  | unmatchedClose hc hle =>
    have hprefix : u ++ [')'] <+: t := ⟨v, by simp [ht, hc]⟩
    have hcount := h.nested _ hprefix
    simp only [List.count_append, List.count_singleton] at hcount
    simp at hcount
    omega
  | operatorAfter hop hb hawaits =>
    exact h.supplied _ c (infix_pair_iff.2 ⟨u, v, ht, hb⟩) hop hawaits
  | stackedStar hc hb =>
    subst hc
    exact h.single (infix_pair_iff.2 ⟨u, v, ht, hb⟩)
  | leadingOperator hop hu =>
    have hfirst := h.first c (by simp [ht, hu])
    rw [hop] at hfirst
    cases hfirst
  | trailingOperator hc hv => exact h.last c (by simp [ht, hv]) hc

theorem Unbroken.faultless (h : Unbroken A t) (hne : t ≠ [])
    (hcount : t.count '(' = t.count ')') : Faultless A t where
  nonempty := hne
  closed := hcount
  allowed := by
    intro c hc
    obtain ⟨u, v, ht⟩ := List.append_of_mem hc
    by_contra hor
    simp only [not_or, Bool.not_eq_true] at hor
    exact h u c v _ ht (.invalidCharacter hor.1 hor.2)
  nested := by
    intro u ⟨v, ht⟩
    have hk : KeptBy A u v := fun x d y g hx _ => h x d y g (ht ▸ hx)
    exact hk.count_le
  supplied := by
    intro b c hbc hop hawaits
    obtain ⟨u, v, ht, hb⟩ := infix_pair_iff.1 hbc
    exact h u c v _ ht (.operatorAfter hop hb hawaits)
  single := by
    intro hss
    obtain ⟨u, v, ht, hb⟩ := infix_pair_iff.1 hss
    exact h u '*' v _ ht (.stackedStar rfl hb)
  first := by
    intro c hc
    obtain ⟨v, rfl⟩ := List.head?_eq_some_iff.1 hc
    exact Bool.eq_false_iff.2 fun hop => h [] c v _ rfl (.leadingOperator hop rfl)
  last := by
    intro c hc hbinary
    obtain ⟨u, rfl⟩ := List.getLast?_eq_some_iff.1 hc
    exact h u c [] _ rfl (.trailingOperator hbinary rfl)

theorem faultless_of_fault? (h : fault? A t = none) : Faultless A t := by
  have hne : t ≠ [] := by
    rintro rfl
    cases h
  rw [fault?_eq_faultBehind? hne] at h
  obtain ⟨u, c, v, g, rfl, hk, hc, hg⟩ | ⟨hk, hend⟩ := (keptBy_nil A t).stops_or_ends
  · rw [h] at hg
    cases hg
  · rw [List.nil_append] at hk hend
    have hle := hk.count_le
    rw [hend, faultBehind?_nil] at h
    split at h
    · exact (unbroken_iff_keptBy.2 hk).faultless hne (by omega)
    · cases h

theorem Faultless.not_firstFailure (h : Faultless A t) : ¬ FirstFailure A t f := by
  intro hf
  cases hf with
  | empty ht => exact h.nonempty ht
  | @breach u v c _ ht hf _ _ => exact h.unbroken u c v f ht hf
  | leftOpen _ hlt => exact absurd h.closed (Nat.ne_of_gt hlt)

/-- An expression is accepted exactly if it keeps the rules. Otherwise its first failure is
reported, and nothing else. -/
theorem fault?_by_rules (A : Alphabet) (t : List Char) :
    (fault? A t = none ↔ Faultless A t) ∧ ∀ f, fault? A t = some f ↔ FirstFailure A t f := by
  refine ⟨⟨faultless_of_fault?, fun h => ?_⟩, fun f => ⟨firstFailure_of_fault?, fun hf => ?_⟩⟩
  · cases hf : fault? A t with
    | none => rfl
    | some f => exact absurd (firstFailure_of_fault? hf) h.not_firstFailure
  · cases h : fault? A t with
    | none => exact absurd hf (faultless_of_fault? h).not_firstFailure
    | some g => rw [(firstFailure_of_fault? h).unique hf]

end RegexAutomata.Expression
