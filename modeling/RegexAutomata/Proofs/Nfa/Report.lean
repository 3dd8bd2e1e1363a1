import RegexAutomata.Proofs.Nfa.Construction
import RegexAutomata.Proofs.Nfa.Faults

/-! The report of building from a postfix form: each character with the count of operands behind it,
and at the end the automaton. -/
namespace RegexAutomata

namespace Postfix
variable {position depth d : Nat} {c : Char} {t : List Char} {log : List Log.Event}

structure Counted (position depth : Nat) (t : List Char) (log : List Log.Event) : Prop where
  length_eq : log.length = t.length
  event : ∀ k c, t[k]? = some c →
    ∃ d, depthFrom position depth (t.take (k + 1)) = .ok d ∧ log[k]? = some (.consumed c d)

theorem Counted.cons (hc : depthAfter position depth c = .ok d)
    (h : Counted (position + 1) d t log) :
    Counted position depth (c :: t) (.consumed c d :: log) where
  length_eq := by simp [h.length_eq]
  event := by
    intro k c' hk
    cases k with
    | zero =>
      obtain rfl : c = c' := Option.some.inj hk
      exact ⟨d, by simp [depthFrom, hc], rfl⟩
    | succ k =>
      obtain ⟨d', hd', hlog⟩ := h.event k c' hk
      exact ⟨d', by simpa [depthFrom, hc] using hd', hlog⟩

end Postfix

namespace Assembly
variable {A : Alphabet} {w : Assembly} {position : Nat} {t : List Char}

end Assembly

end RegexAutomata
