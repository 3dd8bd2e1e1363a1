import RegexAutomata.Expression.Fault
import RegexAutomata.Proofs.Expression.Draft

/-! The texts without a fault. They are the texts of drafts whose operands are symbols and in which
no star follows another one. A reader of such a text keeps the drafts of the open groups. -/
namespace RegexAutomata.Expression
variable {A : Alphabet} {c p : Char} {t : List Char} {n k : Nat} {before : Option Char}

namespace Place

theorem awaitsOperand_eq_none_iff {p : Place} :
    p.awaitsOperand = none ↔ ∀ b ∈ p.before, b ∉ ['(', '+', '.'] := by
  cases hb : p.before with
  | none => simp [awaitsOperand, hb]
  | some b =>
    simp [awaitsOperand, hb]
    grind

/-- The rules at one place, all at once. -/
theorem fault?_eq_none_iff {p : Place} : p.fault? A = none ↔
    A.allows p.char = true ∧ (p.char = ')' → p.depth ≠ 0) ∧
      ((role p.char).isOperator = true → p.awaitsOperand = none ∧
        (p.char = '*' → p.before ≠ some '*') ∧ p.position ≠ 0 ∧
          (p.isLast = true → p.char = '*')) := by
  rw [fault?]
  cases A.allows p.char with
  | false => simp
  | true =>
    by_cases hd : p.char = ')' ∧ p.depth = 0
    · simp [hd]
    · cases (role p.char).isOperator with
      | false => simp_all
      | true => cases p.awaitsOperand <;> grind

end Place

theorem faultFrom?_cons_eq_none : faultFrom? A n k before (c :: t) = none ↔
    Place.fault? A ⟨n, k, before, c, t.isEmpty⟩ = none ∧
      faultFrom? A (n + 1) (Place.depthAfter ⟨n, k, before, c, t.isEmpty⟩) (some c) t = none :=
  Option.or_eq_none_iff

theorem faultFrom?_cons (h : Place.fault? A ⟨n, k, before, c, t.isEmpty⟩ = none) :
    faultFrom? A n k before (c :: t) =
      faultFrom? A (n + 1) (Place.depthAfter ⟨n, k, before, c, t.isEmpty⟩) (some c) t := by
  rw [faultFrom?, h, Option.none_or]

theorem faultFrom?_operand (hc : A.contains c = true) :
    faultFrom? A n k before (c :: t) = faultFrom? A (n + 1) k (some c) t := by
  have hr := Alphabet.role_of_contains hc
  obtain ⟨hopen, hclose⟩ := ne_parenthesis_of_operand hr
  rw [faultFrom?_cons (Place.fault?_eq_none_iff.2 ?_)]
  · simp [Place.depthAfter, hclose, hopen]
  · simp [Alphabet.allows, hc, hr, hclose, Role.isOperator]

theorem faultFrom?_opening :
    faultFrom? A n k before ('(' :: t) = faultFrom? A (n + 1) (k + 1) (some '(') t := by
  have hr : (role '(').isOperator = false := rfl
  rw [faultFrom?_cons (Place.fault?_eq_none_iff.2 ?_)]
  · simp [Place.depthAfter]
  · simp [Alphabet.allows, isReserved, reserved, hr]

theorem faultFrom?_closing :
    faultFrom? A n (k + 1) before (')' :: t) = faultFrom? A (n + 1) k (some ')') t := by
  have hr : (role ')').isOperator = false := rfl
  rw [faultFrom?_cons (Place.fault?_eq_none_iff.2 ?_)]
  · simp [Place.depthAfter]
  · simp [Alphabet.allows, isReserved, reserved, hr]

theorem faultFrom?_operator {o : Operator} (hp : p ∉ ['(', '+', '.']) (hs : o = .star → p ≠ '*')
    (hn : n ≠ 0) (ht : o = .star ∨ t ≠ []) :
    faultFrom? A n k (some p) (o.char :: t) = faultFrom? A (n + 1) k (some o.char) t := by
  have hchar : isReserved o.char = true ∧ o.char ≠ '(' ∧ o.char ≠ ')' := by cases o <;> decide
  have hstar : o.char = '*' ↔ o = .star := by cases o <;> decide
  have hawaits : Place.awaitsOperand ⟨n, k, some p, o.char, t.isEmpty⟩ = none := by
    rw [Place.awaitsOperand_eq_none_iff]
    intro b hb
    obtain rfl : p = b := Option.some.inj hb
    exact hp
  rw [faultFrom?_cons (Place.fault?_eq_none_iff.2 ?_)]
  · simp [Place.depthAfter, hchar]
  · refine ⟨by simp [Alphabet.allows, hchar], fun h => absurd h hchar.2.2, fun _ => ⟨hawaits, ?_⟩⟩
    refine ⟨fun h hb => hs (hstar.1 h) (Option.some.inj hb), hn, fun hlast => hstar.2 ?_⟩
    exact ht.resolve_right fun ht => ht (List.isEmpty_iff.1 hlast)

/-- A faultless text has allowed characters only. -/
theorem allows_of_faultFrom?_eq_none (h : faultFrom? A n k before t = none) :
    ∀ c ∈ t, A.allows c = true := by
  induction t generalizing n k before with
  | nil => intro c hc; cases hc
  | cons c t ih =>
    obtain ⟨hplace, hrest⟩ := faultFrom?_cons_eq_none.1 h
    exact List.forall_mem_cons.2 ⟨(Place.fault?_eq_none_iff.1 hplace).1, ih hrest⟩

theorem allows_of_fault?_eq_none (h : fault? A t = none) : ∀ c ∈ t, A.allows c = true := by
  cases t with
  | nil => cases h
  | cons c t => exact allows_of_faultFrom?_eq_none h

namespace Draft
variable {r : Rank} {b : Bool}

theorem text_ne_nil : ∀ {r : Rank} (d : Draft r true), d.text ≠ []
  | _, .operand _ => List.cons_ne_nil _ _
  | _, .group _ => List.cons_ne_nil _ _
  | _, .plain a => a.text_ne_nil
  | _, .star f => by simp [text]
  | _, .beside f e => by simp [text]
  | _, .single f => f.text_ne_nil
  | _, .concat t f => by simp [text]
  | _, .alone t => t.text_ne_nil
  | _, .union e t => by simp [text]

theorem length_text_pos (d : Draft r true) : 0 < d.text.length :=
  List.length_pos_iff.2 d.text_ne_nil

/-- A draft that has its last operand does not end in a character that waits for one. -/
theorem ending?_not_awaiting (d : Draft r true) (h : d.Over fun c => A.contains c = true) :
    ∃ c, d.ending? = some c ∧ c ∉ ['(', '+', '.'] := by
  obtain ⟨c, hc, hor⟩ := d.ending?_eq_some h
  refine ⟨c, hc, fun hmem => ?_⟩
  obtain hA | rfl | rfl := hor
  · rw [contains_awaiting A hmem] at hA
    cases hA
  · exact absurd hmem (by decide)
  · exact absurd hmem (by decide)

theorem ending?_of_endsInStar : ∀ (f : Draft .factor true), f.Over (fun c => A.contains c = true) →
    (f.ending? = some '*' ↔ f.endsInStar = true)
  | .plain (.operand c), h => by
    have hc : c ≠ '*' := by
      intro hc
      have hA : A.contains '*' = true := hc ▸ h
      rw [Alphabet.contains_of_isReserved (by decide)] at hA
      cases hA
    simpa [ending?, endsInStar] using hc
  | .plain (.group _), _ => by simp [ending?, endsInStar]
  | .star _, _ => by simp [ending?, endsInStar]
  | .beside _ _, _ => by simp [ending?, endsInStar]

/-- A star is in order behind a factor that ends in no star. -/
theorem faultFrom?_star {f : Draft .factor true} (h : f.Over fun c => A.contains c = true)
    (hs : f.endsInStar = false) (hn : n ≠ 0) :
    faultFrom? A n k (f.ending?.or before) ('*' :: t) = faultFrom? A (n + 1) k (some '*') t := by
  obtain ⟨c, hc, hmem⟩ := f.ending?_not_awaiting h
  have hstar : c ≠ '*' := by
    intro he
    rw [(ending?_of_endsInStar f h).1 (he ▸ hc)] at hs
    cases hs
  rw [hc, Option.some_or]
  exact faultFrom?_operator (o := .star) hmem (fun _ => hstar) hn (.inl rfl)

/-- The other operators are in order behind every draft that has its last operand. -/
theorem faultFrom?_binary {d : Draft r true} (hc : c = '+' ∨ c = '.')
    (h : d.Over fun c => A.contains c = true) (hn : n ≠ 0) (ht : t ≠ []) :
    faultFrom? A n k (d.ending?.or before) (c :: t) = faultFrom? A (n + 1) k (some c) t := by
  obtain ⟨p, hp, hmem⟩ := d.ending?_not_awaiting h
  rw [hp, Option.some_or]
  obtain rfl | rfl := hc
  · exact faultFrom?_operator (o := .union) hmem nofun hn (.inr ht)
  · exact faultFrom?_operator (o := .concat) hmem nofun hn (.inr ht)

theorem append_ne_nil (d : Draft r b) (ht : b = true ∨ t ≠ []) : d.text ++ t ≠ [] := by
  cases b with
  | true => exact List.append_ne_nil_of_left_ne_nil d.text_ne_nil t
  | false => exact List.append_ne_nil_of_right_ne_nil _ (ht.resolve_left Bool.noConfusion)

/-- No place of the text is at fault, whatever stands in front of it. -/
theorem faultFrom?_text : ∀ {r : Rank} {b : Bool} (d : Draft r b) (n k : Nat)
    (before : Option Char) (t : List Char), d.Over (fun c => A.contains c = true) → d.StarsApart →
    (b = true ∨ t ≠ []) → faultFrom? A n k before (d.text ++ t) =
      faultFrom? A (n + d.text.length) k (d.ending?.or before) t
  | _, _, .operand c, n, k, before, t, h, _, _ => faultFrom?_operand h
  | _, _, .group e, n, k, before, t, h, hs, _ => by
    have he := e.faultFrom?_text (n + 1) (k + 1) (some '(') (')' :: t) h hs (.inr (by simp))
    rw [faultFrom?_closing, ← faultFrom?_opening] at he
    simpa [text, ending?, Nat.add_assoc, Nat.add_comm, Nat.add_left_comm] using he
  | _, _, .blank, n, k, before, t, _, _, _ => rfl
  | _, _, .plain a, n, k, before, t, h, hs, _ =>
    a.faultFrom?_text n k before t h hs (.inl rfl)
  | _, _, .star f, n, k, before, t, h, hs, _ => by
    have hf := f.faultFrom?_text n k before ('*' :: t) h hs.2 (.inl rfl)
    have hn : n + f.text.length ≠ 0 := Nat.ne_of_gt (Nat.add_pos_right n f.length_text_pos)
    rw [faultFrom?_star (f := f) h hs.1 hn] at hf
    simpa [text, ending?, Nat.add_assoc] using hf
  | _, _, .beside f e, n, k, before, t, h, hs, _ => by
    have hf := f.faultFrom?_text n k before ('*' :: '(' :: (e.text ++ ')' :: t)) h.1 hs.2.1
      (.inl rfl)
    have hn : n + f.text.length ≠ 0 := Nat.ne_of_gt (Nat.add_pos_right n f.length_text_pos)
    have he := e.faultFrom?_text (n + f.text.length + 1 + 1) (k + 1) (some '(') (')' :: t) h.2
      hs.2.2 (.inr (by simp))
    rw [faultFrom?_star h.1 hs.1 hn, faultFrom?_opening, he, faultFrom?_closing] at hf
    simpa [text, ending?, Nat.add_assoc, Nat.add_comm, Nat.add_left_comm] using hf
  | _, _, .single f, n, k, before, t, h, hs, ht => f.faultFrom?_text n k before t h hs ht
  | _, _, .concat u f, n, k, before, t, h, hs, ht => by
    have hu := u.faultFrom?_text n k before ('.' :: (f.text ++ t)) h.1 hs.1 (.inl rfl)
    have hn : n + u.text.length ≠ 0 := Nat.ne_of_gt (Nat.add_pos_right n u.length_text_pos)
    have hf := f.faultFrom?_text (n + u.text.length + 1) k (some '.') t h.2 hs.2 ht
    rw [faultFrom?_binary (.inr rfl) h.1 hn (f.append_ne_nil ht), hf] at hu
    simpa [text, ending?, Nat.add_assoc, Nat.add_comm, Nat.add_left_comm] using hu
  | _, _, .alone u, n, k, before, t, h, hs, ht => u.faultFrom?_text n k before t h hs ht
  | _, _, .union e u, n, k, before, t, h, hs, ht => by
    have he := e.faultFrom?_text n k before ('+' :: (u.text ++ t)) h.1 hs.1 (.inl rfl)
    have hn : n + e.text.length ≠ 0 := Nat.ne_of_gt (Nat.add_pos_right n e.length_text_pos)
    have hu := u.faultFrom?_text (n + e.text.length + 1) k (some '+') t h.2 hs.2 ht
    rw [faultFrom?_binary (.inl rfl) h.1 hn (u.append_ne_nil ht), hu] at he
    simpa [text, ending?, Nat.add_assoc, Nat.add_comm, Nat.add_left_comm] using he

/-- The text of a draft that has its last operand is faultless. -/
theorem fault?_text {r : Rank} (d : Draft r true) (h : d.Over fun c => A.contains c = true)
    (hs : d.StarsApart) : fault? A d.text = none := by
  have hd := d.faultFrom?_text 0 0 none [] h hs (.inl rfl)
  rw [List.append_nil] at hd
  cases ht : d.text with
  | nil => exact absurd ht d.text_ne_nil
  | cons c t =>
    rw [ht] at hd
    exact hd

end Draft

end RegexAutomata.Expression
