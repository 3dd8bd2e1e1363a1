import RegexAutomata.Proofs.Dfa.Renaming
import RegexAutomata.Proofs.Nfa.Shift
import RegexAutomata.Proofs.Session.Stages

/-! Ids are names only. What a conversion comes to does not depend on them, nor on how many of them
were issued before. -/
namespace RegexAutomata

def Conversion.rename (f : Nat → Nat) (c : Conversion) : Conversion :=
  { c with nfa := c.nfa.rename f, dfa := c.dfa.rename f }

namespace Session
variable {A : Alphabet} {f : Forms} {e : List Char} {n : Nat}

theorem build_add (h : (Session.mk A n).forms e = .ok f) (k : Nat) :
    ((Session.mk A (n + k)).build f).result =
      ((Session.mk A n).build f).result.map (Conversion.rename (· + k)) := by
  have hk : (Session.mk A (n + k)).forms e = .ok f := h
  obtain ⟨m, d, hm, hd, hbuild⟩ := exists_built h
  obtain ⟨m', d', hm', hd', hbuild'⟩ := exists_built hk
  have hrename : m' = m.rename (· + k) := by
    have hadd := Nfa.result_ofPostfix_add A n k f.postfixForm
    rw [hm, hm'] at hadd
    exact Except.ok.inj hadd
  have hs : m.start? = some m.entry := (Construction.ofPostfix hm).1.start?_eq
  obtain ⟨d₀, d₁, hd₀, hd₁, hvalue⟩ :=
    Dfa.exists_ofNfa?_rename (Set.injOn_of_injective (Assembly.add_injective k)) A hs
  obtain rfl := Option.some.inj (hd.symm.trans hd₀)
  rw [← hrename] at hd₁
  obtain rfl := Option.some.inj (hd'.symm.trans hd₁)
  rw [hbuild, hbuild', hrename, hvalue]
  rfl

/-- With `k` more ids issued before, all ids are greater by `k`, and errors are the same. -/
theorem convert_add (A : Alphabet) (n k : Nat) (e : List Char) :
    ((Session.mk A (n + k)).convert e).result =
      ((Session.mk A n).convert e).result.map (Conversion.rename (· + k)) := by
  cases hempty : A.isEmpty with
  | true => simp [convert, hempty, Except.map]
  | false =>
    cases h : (Session.mk A n).forms e with
    | error x =>
      have hk : (Session.mk A (n + k)).forms e = .error x := h
      rw [convert_of_forms_error hempty h, convert_of_forms_error hempty hk]
      rfl
    | ok f =>
      have hk : (Session.mk A (n + k)).forms e = .ok f := h
      rw [convert_of_forms hempty h, convert_of_forms hempty hk]
      exact build_add h k

/-- The subset construction comes to the same automaton under all ids that are kept apart: a renaming
of an automaton with a start state only changes the sets that states stand for, whatever it does to
ids that do not occur in it. So a session that has issued `k` ids converts like a fresh one, with all
ids greater by `k`. -/
theorem ids_immaterial (A : Alphabet) :
    (∀ (m : Nfa) (s : Nat) (f : Nat → Nat), m.start? = some s → Set.InjOn f {i | i ∈ m.ids} →
      ∃ d d', Dfa.ofNfa? A m = some d ∧ Dfa.ofNfa? A (m.rename f) = some d' ∧
        d'.value = d.value.rename f) ∧
    ∀ (e : List Char) (k : Nat), ((Session.mk A k).convert e).result =
      ((start A).convert e).result.map (Conversion.rename (· + k)) := by
  refine ⟨fun m s f hs hf => Dfa.exists_ofNfa?_rename hf A hs, fun e k => ?_⟩
  have hadd := convert_add A 0 k e
  rwa [Nat.zero_add] at hadd

/-- The ids 0, 1 and 5 become 3, 4 and 2, and behind three issued ids all ids are greater by three. -/
theorem ids_immaterial_rotated :
    (∃ d d', Dfa.ofNfa? (.extend .empty ['b']) Dfa.twins = some d ∧
      Dfa.ofNfa? (.extend .empty ['b']) (Dfa.twins.rename fun i => (i + 3) % 6) = some d' ∧
      d'.value = d.value.rename fun i => (i + 3) % 6) ∧
    ∃ c, ((start (.extend .empty ['b'])).convert ['b', '*']).result = .ok c ∧
      ((Session.mk (.extend .empty ['b']) 3).convert ['b', '*']).result =
        .ok (c.rename (· + 3)) := by
  have hs : Dfa.twins.start? = some 0 := by decide
  have hids : Dfa.twins.ids = .ofList [0, 1, 5] := by decide
  have hle : ∀ i ∈ Dfa.twins.ids, i ≤ 5 := by
    intro i hi
    rw [hids, IdSet.mem_ofList] at hi
    simp only [List.mem_cons, List.not_mem_nil, or_false] at hi
    omega
  have hf : Set.InjOn (fun i => (i + 3) % 6) {i | i ∈ Dfa.twins.ids} := by
    intro i hi j hj hij
    have hi' := hle i hi
    have hj' := hle j hj
    simp only at hij
    omega
  obtain ⟨hrename, hshift⟩ := ids_immaterial (.extend .empty ['b'])
  obtain ⟨c, hc⟩ : ∃ c, ((start (.extend .empty ['b'])).convert ['b', '*']).result = .ok c :=
    ⟨_, rfl⟩
  refine ⟨hrename Dfa.twins 0 _ hs hf, c, hc, ?_⟩
  rw [hshift, hc]
  rfl

end Session
end RegexAutomata
