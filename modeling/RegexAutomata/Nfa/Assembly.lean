import RegexAutomata.Log
import RegexAutomata.Nfa.Thompson
import RegexAutomata.Postfix.Fault

/-! Thompson's construction on a stack of automata. State ids are issued in ascending order, so
that automata built with one count of issued ids share none and can be merged as they are. -/
namespace RegexAutomata

structure Assembly where
  issued : Nat
  stack : List Nfa
deriving DecidableEq

namespace Assembly

def start : Assembly := ⟨0, []⟩

def issue (w : Assembly) : Assembly := { w with issued := w.issued + 1 }

/-- Counts from 0 again, so that ids of automata on the stack can be issued a second time. -/
def reissue (w : Assembly) : Assembly := { w with issued := 0 }

def push (w : Assembly) (m : Nfa) : Assembly := { w with stack := m :: w.stack }

def pushSymbol (w : Assembly) (c : Char) : Assembly :=
  ⟨w.issued + 2, .symbol w.issued c :: w.stack⟩

def swap? (w : Assembly) : Option Assembly :=
  match w.stack with
  | m :: m' :: rest => some { w with stack := m' :: m :: rest }
  | _ => none

/-- Applies an operator to the top of the stack, where the right operand lies above the left. -/
def operate? (w : Assembly) (o : Operator) : Option Assembly :=
  match o, w.stack with
  | .star, m :: rest => some ⟨w.issued + 2, m.star w.issued :: rest⟩
  | .union, r :: l :: rest => some ⟨w.issued + 2, l.union w.issued r :: rest⟩
  | .concat, r :: l :: rest => some ⟨w.issued, l.concat r :: rest⟩
  | _, _ => none

def step (A : Alphabet) (position : Nat) (w : Assembly) (c : Char) :
    Except Postfix.Fault Assembly :=
  match role c with
  | .operator o =>
    match w.operate? o with
    | some w' => .ok w'
    | none => .error (.missingOperand c position)
  | _ => if A.contains c then .ok (w.pushSymbol c) else .error (.unexpectedSymbol c position)

structure Run where
  last : Assembly
  log : List Log.Event
  fault : Option Postfix.Fault

def run (A : Alphabet) (position : Nat) (w : Assembly) : List Char → Run
  | [] => ⟨w, [], none⟩
  | c :: t =>
    match w.step A position c with
    | .error f => ⟨w, [], some f⟩
    | .ok w' =>
      let r := run A (position + 1) w' t
      { r with log := .consumed c w'.stack.length :: r.log }

def result (w : Assembly) : Except Postfix.Fault Nfa :=
  match w.stack with
  | [] => .error .noOperands
  | [m] => .ok m
  | ms => .error (.unjoinedOperands ms.length)

end Assembly

/-- What building from a postfix form comes to. Ids issued before a fault stay issued. -/
structure Nfa.Built where
  issued : Nat
  log : List Log.Event
  result : Except Postfix.Fault Nfa

def Nfa.ofPostfix (A : Alphabet) (issued : Nat) (t : List Char) : Nfa.Built :=
  let r := (Assembly.mk issued []).run A 0 t
  match r.fault with
  | some f => ⟨r.last.issued, r.log, .error f⟩
  | none =>
    match r.last.result with
    | .error f => ⟨r.last.issued, r.log, .error f⟩
    | .ok m => ⟨r.last.issued, r.log ++ [.assembled t m.size m.entry m.exit], .ok m⟩

end RegexAutomata
