import RegexAutomata.Alphabet
import RegexAutomata.Keyed.Lemmas

/-! Symbols and reserved characters: no character is both. An alphabet is decided by the characters
that it contains, and a declaration by the characters in it that can be symbols. -/
namespace RegexAutomata

theorem ne_parenthesis_of_operand {c : Char} (h : role c = .operand) : c ≠ '(' ∧ c ≠ ')' := by
  constructor <;> intro hc <;> subst hc <;> cases h

namespace Alphabet
variable {A B : Alphabet} {c x : Char} {t t' : List Char}

theorem role_of_contains (h : A.contains c = true) : role c = .operand := by
  have hs := A.symbolic c (List.contains_iff_mem.1 h)
  rw [canBeSymbol, Bool.and_eq_true, Bool.not_eq_true'] at hs
  exact role_eq_operand_iff.2 hs.1

theorem contains_of_isReserved (h : isReserved c = true) : A.contains c = false := by
  rw [Bool.eq_false_iff]
  intro hA
  rw [role_eq_operand_iff.1 (role_of_contains hA)] at h
  cases h

theorem contains_of_allows (h : A.allows c = true) (hc : role c = .operand) :
    A.contains c = true := by
  rw [allows, role_eq_operand_iff.1 hc, Bool.or_false] at h
  exact h

theorem contains_iff_mem : A.contains c = true ↔ c ∈ A.symbols := List.contains_iff_mem

theorem isEmpty_eq_false_iff : A.isEmpty = false ↔ ∃ c, A.contains c = true := by
  rw [isEmpty, Keyed.isEmpty, List.isEmpty_eq_false_iff_exists_mem]
  exact exists_congr fun c => contains_iff_mem.symm

theorem ext_contains (h : ∀ c, A.contains c = true ↔ B.contains c = true) : A = B := by
  have hsymbols : A.symbols = B.symbols := by
    refine Keyed.ext_mem fun c => ?_
    rw [← contains_iff_mem, ← contains_iff_mem, h]
  cases A
  cases B
  cases hsymbols
  rfl

theorem contains_add (h : canBeSymbol c = true) :
    (A.add c h).contains x = true ↔ x = c ∨ A.contains x = true := by
  have hmem : x ∈ A.symbols.insert c ↔ x = c ∨ x ∈ A.symbols := by
    rw [Keyed.mem_insert]
    constructor
    · exact fun hx => hx.imp_right And.left
    · intro hx
      by_cases he : x = c
      · exact .inl he
      · exact .inr ⟨hx.resolve_left he, fun hkey => he (Char.toNat_inj.1 hkey)⟩
  rw [contains_iff_mem, contains_iff_mem]
  exact hmem

theorem contains_extend (A : Alphabet) (t : List Char) :
    (A.extend t).contains x = true ↔ A.contains x = true ∨ (x ∈ t ∧ canBeSymbol x = true) := by
  induction t generalizing A with
  | nil => simp [extend]
  | cons c t ih =>
    rw [extend]
    split
    · rw [ih, contains_add ‹_›, List.mem_cons]
      grind
    · rw [ih, List.mem_cons]
      grind

theorem ofText_eq_ok :
    ofText t = .ok A ↔ (∀ x ∈ t, isReserved x = false) ∧ A = empty.extend t := by
  rw [ofText, declare]
  cases h : t.find? isReserved with
  | some c =>
    have hc := List.find?_some h
    have hmem := List.mem_of_find?_eq_some h
    grind
  | none =>
    have hnone : ∀ x ∈ t, isReserved x = false := by simpa using h
    rw [Except.ok.injEq, eq_comm]
    exact ⟨fun hA => ⟨hnone, hA⟩, And.right⟩

theorem isSeparator_of_isReserved (h : isReserved c = true) : isSeparator c = false := by
  have hall : reserved.all (fun c => !isSeparator c) = true := by decide
  simpa using List.all_eq_true.1 hall c (List.contains_iff_mem.1 h)

/-- Order, repetition and separators of a declaration do not matter. -/
theorem ofText_congr (hsame : ∀ x, isSeparator x = false → (x ∈ t ↔ x ∈ t'))
    (h : ofText t = .ok A) : ofText t' = .ok A := by
  obtain ⟨hreserved, rfl⟩ := ofText_eq_ok.1 h
  refine ofText_eq_ok.2 ⟨fun x hx => ?_, ext_contains fun x => ?_⟩
  · rw [Bool.eq_false_iff]
    intro hr
    have hx' := (hsame x (isSeparator_of_isReserved hr)).2 hx
    rw [hreserved x hx'] at hr
    cases hr
  · rw [contains_extend, contains_extend]
    refine or_congr_right (and_congr_left fun hx => hsame x ?_)
    rw [canBeSymbol, Bool.and_eq_true, Bool.not_eq_true', Bool.not_eq_true'] at hx
    exact hx.2

def Within (A B : Alphabet) : Prop := ∀ c, A.contains c = true → B.contains c = true

theorem Within.isEmpty_eq_false (h : A.Within B) (hne : A.isEmpty = false) : B.isEmpty = false := by
  obtain ⟨c, hc⟩ := isEmpty_eq_false_iff.1 hne
  exact isEmpty_eq_false_iff.2 ⟨c, h c hc⟩

def AgreeOn (A B : Alphabet) (t : List Char) : Prop := ∀ c ∈ t, A.contains c = B.contains c

theorem Within.filter (h : A.Within B) : B.toList.filter A.contains = A.toList := by
  have hsymbols : B.symbols.filter A.contains = A.symbols := by
    refine Keyed.ext_mem fun c => ?_
    rw [Keyed.mem_filter]
    constructor
    · exact fun hc => contains_iff_mem.1 hc.2
    · intro hc
      have hA : A.contains c = true := contains_iff_mem.2 hc
      exact ⟨contains_iff_mem.1 (h c hA), hA⟩
  exact congrArg Keyed.toList hsymbols

theorem Within.agreeOn (h : A.Within B)
    (ht : ∀ c ∈ t, isReserved c = false → A.contains c = true) : A.AgreeOn B t := by
  intro c hc
  cases hr : isReserved c with
  | true => rw [contains_of_isReserved hr, contains_of_isReserved hr]
  | false => rw [ht c hc hr, h c (ht c hc hr)]

end Alphabet
end RegexAutomata
