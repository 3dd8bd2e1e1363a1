import RegexAutomata.Expression.Language
import RegexAutomata.Postfix.Basic

/-! The language of a postfix form, by evaluation on a stack of languages. The post-order of a
derivation evaluates to the language of the derivation. -/
namespace RegexAutomata
namespace Postfix

def combine : Operator → List (Language Char) → Option (List (Language Char))
  | .star, L :: rest => some (KStar.kstar L :: rest)
  | .union, R :: L :: rest => some ((L + R) :: rest)
  | .concat, R :: L :: rest => some (L * R :: rest)
  | _, _ => none

def perform (stack : List (Language Char)) (c : Char) : Option (List (Language Char)) :=
  match role c with
  | .operand => some ({[c]} :: stack)
  | .operator o => combine o stack
  | _ => none

def evaluate (stack : List (Language Char)) : List Char → Option (List (Language Char))
  | [] => some stack
  | c :: t => (perform stack c).bind fun stack => evaluate stack t

def language? (t : List Char) : Option (Language Char) :=
  match evaluate [] t with
  | some [L] => some L
  | _ => none

theorem evaluate_append (stack : List (Language Char)) (t u : List Char) :
    evaluate stack (t ++ u) = (evaluate stack t).bind fun stack => evaluate stack u := by
  induction t generalizing stack with
  | nil => rfl
  | cons c t ih =>
    rw [List.cons_append, evaluate, evaluate]
    cases perform stack c with
    | none => rfl
    | some stack => exact ih stack

theorem evaluate_singleton (stack : List (Language Char)) (c : Char) :
    evaluate stack [c] = perform stack c := by
  rw [evaluate]
  cases perform stack c <;> rfl

end Postfix

namespace Expression.Derivation
open Postfix

theorem evaluate_postOrder : ∀ {r : Rank} (d : Derivation r) (stack : List (Language Char)),
    d.Over (fun c => role c = .operand) →
    evaluate stack d.postOrder = some (d.language :: stack)
  | _, .operand c, stack, h => by
    have hc : role c = .operand := h
    simp [postOrder, evaluate, perform, hc, language]
  | _, .group e, stack, h => evaluate_postOrder e stack h
  | _, .plain a, stack, h => evaluate_postOrder a stack h
  | _, .single f, stack, h => evaluate_postOrder f stack h
  | _, .alone t, stack, h => evaluate_postOrder t stack h
  | _, .star f, stack, h => by
    rw [postOrder, evaluate_append, evaluate_postOrder f stack h, Option.bind_some,
      evaluate_singleton]
    rfl
  | _, .concat t f, stack, h => by
    rw [postOrder, evaluate_append, evaluate_append, evaluate_postOrder t stack h.1,
      Option.bind_some, evaluate_postOrder f _ h.2, Option.bind_some, evaluate_singleton]
    rfl
  | _, .union e t, stack, h => by
    rw [postOrder, evaluate_append, evaluate_append, evaluate_postOrder e stack h.1,
      Option.bind_some, evaluate_postOrder t _ h.2, Option.bind_some, evaluate_singleton]
    rfl

theorem language?_postOrder {r : Rank} (d : Derivation r)
    (h : d.Over (fun c => role c = .operand)) : language? d.postOrder = some d.language := by
  rw [language?, evaluate_postOrder d [] h]

end Expression.Derivation
end RegexAutomata
