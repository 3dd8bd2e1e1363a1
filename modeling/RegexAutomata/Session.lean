import RegexAutomata.Dfa.Subset
import RegexAutomata.Expression.Explicit
import RegexAutomata.Expression.Fault
import RegexAutomata.Nfa.Assembly
import RegexAutomata.Postfix.Basic

/-! Conversions over one alphabet. A session remembers how many state ids it has issued, so that
no two of its automata share one. Nothing is built unless the expression passes every check. -/
namespace RegexAutomata

inductive ConversionError where
  | alphabet (e : Alphabet.Error)
  | expression (f : Expression.Fault)
  | postfixForm (f : Postfix.Fault)
  | emptyAutomaton
deriving DecidableEq

def ConversionError.kind : ConversionError → ErrorKind
  | .alphabet _ => .alphabet
  | .expression f => f.kind
  | .postfixForm _ => .malformedPostfix
  | .emptyAutomaton => .emptyAutomaton

def ConversionError.message : ConversionError → String
  | .alphabet e => "alphabet error: " ++ e.message
  | .expression f => "invalid regular expression: " ++ f.message
  | .postfixForm f => "malformed postfix expression: " ++ f.message
  | .emptyAutomaton => "cannot convert an empty NFA"

structure Forms where
  expression : List Char
  explicit : List Char
  postfixForm : List Char
deriving DecidableEq

structure Conversion extends Forms where
  nfa : Nfa
  dfa : Dfa
deriving DecidableEq

structure Session where
  alphabet : Alphabet
  issued : Nat
deriving DecidableEq

namespace Session

structure Reply (α : Type) where
  session : Session
  log : List Log.Event
  result : Except ConversionError α

def start (A : Alphabet) : Session := ⟨A, 0⟩

def ofText (declaration : List Char) : Except ConversionError Session :=
  match Alphabet.ofText declaration with
  | .ok A => .ok (start A)
  | .error e => .error (.alphabet e)

def forms (s : Session) (expression : List Char) : Except ConversionError Forms :=
  let explicit := Expression.explicit s.alphabet expression
  match Expression.fault? s.alphabet explicit with
  | some f => .error (.expression f)
  | none =>
    let postfixForm := Postfix.ofExpression explicit
    match Postfix.fault? postfixForm with
    | some f => .error (.postfixForm f)
    | none => .ok ⟨expression, explicit, postfixForm⟩

def explicit? (s : Session) (expression : List Char) : Except ConversionError (List Char) :=
  (s.forms expression).map Forms.explicit

def postfixForm? (s : Session) (expression : List Char) : Except ConversionError (List Char) :=
  (s.forms expression).map Forms.postfixForm

def assemble (s : Session) (postfixForm : List Char) : Reply Nfa :=
  let b := Nfa.ofPostfix s.alphabet s.issued postfixForm
  ⟨{ s with issued := b.issued }, b.log, b.result.mapError .postfixForm⟩

def determinize (s : Session) (m : Nfa) : Except ConversionError (Logged Dfa) :=
  match Dfa.ofNfa? s.alphabet m with
  | some d => .ok d
  | none => .error .emptyAutomaton

def build (s : Session) (f : Forms) : Reply Conversion :=
  let announced := Log.Event.accepted f.expression f.explicit f.postfixForm
  let nfa := s.assemble f.postfixForm
  match nfa.result with
  | .error e => ⟨nfa.session, announced :: nfa.log, .error e⟩
  | .ok m =>
    match s.determinize m with
    | .error e => ⟨nfa.session, announced :: nfa.log, .error e⟩
    | .ok d => ⟨nfa.session, announced :: nfa.log ++ d.log, .ok ⟨f, m, d.value⟩⟩

def convert (s : Session) (expression : List Char) : Reply Conversion :=
  if s.alphabet.isEmpty then ⟨s, [], .error (.alphabet .empty)⟩
  else
    match s.forms expression with
    | .error e => ⟨s, [], .error e⟩
    | .ok f => s.build f

end Session

def convert (declaration expression : List Char) : Logged (Except ConversionError Conversion) :=
  match Session.ofText declaration with
  | .error e => ⟨.error e, []⟩
  | .ok s =>
    let r := s.convert expression
    ⟨r.result, r.log⟩

end RegexAutomata
