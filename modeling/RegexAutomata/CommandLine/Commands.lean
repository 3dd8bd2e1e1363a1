import RegexAutomata.CommandLine.Arguments
import RegexAutomata.CommandLine.Dialogue
import RegexAutomata.Dfa.Graph
import RegexAutomata.Dfa.Table
import RegexAutomata.Nfa.Listing
import RegexAutomata.Session
import RegexAutomata.Text.Plain

/-! The commands as dialogues. Only the conversion asks, and only for what was not given; the
alphabet is declared before the expression is asked for. -/
namespace RegexAutomata.CommandLine

def fail (message : String) : Dialogue := .report s!"Error: {message}\n" (.finish 1)

def succeed (output : String) : Dialogue := .print output (.finish 0)

/-- The event as a line of the log, in plain text: symbols of an alphabet are free characters. -/
def eventLine (e : Log.Event) : String :=
  String.ofList (plain s!"[{e.level.name} {e.target}] {e.message}".toList) ++ "\n"

def reportEvents (verbose : Bool) (log : List Log.Event) (next : Dialogue) : Dialogue :=
  if verbose then
    (log.filter fun e => e.level == .debug).foldr (fun e d => .report (eventLine e) d) next
  else next

def banner : String :=
  "This program converts a Regular Expression to a DFA.\n" ++
    "The following characters are reserved operators: " ++
    String.ofList (List.intercalate [' '] (reserved.map fun c => [c])) ++ "\n\n"

def alphabetPrompt : String := "Please enter a grammar (e.g., a,b): "

def expressionPrompt : String := "Please enter a regular expression (e.g., (a+b)*.a.b.b): "

def unreadable : String := "failed to read input: stream did not contain valid UTF-8"

def askUnless (prompt : String) (given : Option (List Char)) (next : List Char → Dialogue) :
    Dialogue :=
  match given with
  | some t => next t
  | none => .print prompt <| .ask fun line =>
    match lineText? line with
    | some t => next t
    | none => fail unreadable

def conversionText (showNfa asGraph : Bool) (c : Conversion) : String :=
  if asGraph then String.ofList c.dfa.graph
  else
    let listing := "\n--- NFA Construction ---\n" ++ String.ofList c.nfa.listing
    "Concatenation: " ++ String.ofList c.explicit ++ "\n" ++
      "Postfix Expression: " ++ String.ofList c.postfixForm ++ "\n" ++
      (if showNfa then listing else "") ++
      "\n--- DFA Transition Table ---\n" ++ String.ofList c.dfa.table

def convertIn (verbose showNfa asGraph : Bool) (s : Session) (expression : List Char) :
    Dialogue :=
  let r := s.convert expression
  reportEvents verbose (.requested s.alphabet expression :: r.log) <|
    match r.result with
    | .ok c => succeed (conversionText showNfa asGraph c)
    | .error e => fail e.message

def inSession (declaration : List Char) (next : Session → Dialogue) : Dialogue :=
  match Session.ofText declaration with
  | .ok s => next s
  | .error e => fail e.message

def convertDialogue (verbose : Bool) (alphabet expression : Option (List Char))
    (showNfa asGraph : Bool) : Dialogue :=
  let questions :=
    askUnless alphabetPrompt alphabet fun a =>
      inSession a fun s =>
        askUnless expressionPrompt expression (convertIn verbose showNfa asGraph s)
  if alphabet.isNone || expression.isNone then .print banner questions else questions

def checkText (s : Session) (explicit : List Char) : String :=
  "✓ Valid expression\n" ++
    "  Alphabet:      " ++ String.ofList s.alphabet.text ++ "\n" ++
    "  Concatenation: " ++ String.ofList explicit ++ "\n"

def checkDialogue (alphabet expression : List Char) : Dialogue :=
  inSession alphabet fun s =>
    match s.explicit? expression with
    | .ok x => succeed (checkText s x)
    | .error e => fail e.message

def postfixDialogue (alphabet expression : List Char) : Dialogue :=
  inSession alphabet fun s =>
    match s.postfixForm? expression with
    | .ok p => succeed (String.ofList p ++ "\n")
    | .error e => fail e.message

def Invocation.dialogue (i : Invocation) : Dialogue :=
  match i.request with
  | .convert a e showNfa asGraph => convertDialogue i.verbose a e showNfa asGraph
  | .check a e => checkDialogue a e
  | .postfixForm a e => postfixDialogue a e

end RegexAutomata.CommandLine
