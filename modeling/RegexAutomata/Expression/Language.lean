import Mathlib.Computability.Language
import RegexAutomata.Expression.Derivation

/-! The language of a derivation: single words for its operands, then unions, products and
iterations of languages. -/
namespace RegexAutomata.Expression.Derivation

def language : {r : Rank} → Derivation r → Language Char
  | _, .operand c => {[c]}
  | _, .group e => e.language
  | _, .plain a => a.language
  | _, .star f => KStar.kstar f.language
  | _, .single f => f.language
  | _, .concat t f => t.language * f.language
  | _, .alone t => t.language
  | _, .union e t => e.language + t.language

end RegexAutomata.Expression.Derivation
