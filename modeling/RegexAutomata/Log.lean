import RegexAutomata.Alphabet
import RegexAutomata.Text.Quoted

/-! What a conversion reports about its own course. Events are values; their level, target and
wording are functions of them. -/
namespace RegexAutomata
namespace Log

inductive Level where
  | debug | trace
deriving DecidableEq

inductive Event where
  | requested (alphabet : Alphabet) (expression : List Char)
  | accepted (expression explicit postfixForm : List Char)
  | consumed (c : Char) (depth : Nat)
  | assembled (postfixForm : List Char) (states entry exit : Nat)
  | discovered (id : Nat) (origin : IdSet)
  | moved (source : Nat) (c : Char) (target : Nat)
  | determinized (nfaStates dfaStates finals : Nat)
deriving DecidableEq

def Level.name : Level → String
  | .debug => "DEBUG"
  | .trace => "TRACE"

def idsText (ids : IdSet) : String :=
  "\x7b" ++ ", ".intercalate (ids.toList.map toString) ++ "\x7d"

namespace Event

def level : Event → Level
  | .requested .. | .accepted .. | .assembled .. | .determinized .. => .debug
  | .consumed .. | .discovered .. | .moved .. => .trace

def target : Event → String
  | .requested .. => "regdfa"
  | .accepted .. => "regdfa::context"
  | .consumed .. | .assembled .. => "regdfa::nfa"
  | .discovered .. | .moved .. | .determinized .. => "regdfa::dfa"

def message : Event → String
  | .requested A e => s!"alphabet {String.ofList A.text} expression {String.ofList (quoted e)}"
  | .accepted e x p =>
    s!"{String.ofList (quoted e)} -> normalized {String.ofList (quoted x)} -> postfix " ++
      String.ofList (quoted p)
  | .consumed c d => s!"after '{c}': {d} fragment(s) on the stack"
  | .assembled p n s a =>
    s!"built NFA for {String.ofList (quoted p)}: {n} states, start {s}, final {a}"
  | .discovered i o => s!"D{i} = {idsText o}"
  | .moved i c j => s!"D{i} --{c}--> D{j}"
  | .determinized n d f =>
    s!"subset construction: {n} NFA states -> {d} DFA states, {f} final"

def line (e : Event) : String := s!"{e.level.name} {e.target}: {e.message}"

end Event
end Log

structure Logged (α : Type) where
  value : α
  log : List Log.Event

end RegexAutomata
