/-! The arguments of the command line: a command, options for it, and at most one expression.
After two dashes nothing is an option any more. -/
namespace RegexAutomata.CommandLine

inductive Request where
  | convert (alphabet expression : Option (List Char)) (showNfa asGraph : Bool)
  | check (alphabet expression : List Char)
  | postfixForm (alphabet expression : List Char)
deriving DecidableEq

structure Invocation where
  verbose : Bool
  request : Request
deriving DecidableEq

inductive UsageError where
  | noCommand
  | unknownCommand (name : String)
  | unexpected (argument : String)
  | missing (argument : String)
  | repeated (argument : String)
deriving DecidableEq

def UsageError.message : UsageError → String
  | .noCommand => "a command is needed: convert, check or postfix"
  | .unknownCommand name => s!"there is no command '{name}'"
  | .unexpected a => s!"unexpected argument '{a}'"
  | .missing a => s!"missing argument {a}"
  | .repeated a => s!"the argument {a} is given more than once"

structure Given where
  verbose : Bool
  alphabet : Option (List Char)
  expression : Option (List Char)
  showNfa : Bool
  asGraph : Bool

namespace Given

def nothing : Given := ⟨false, none, none, false, false⟩

def withVerbose (g : Given) : Except UsageError Given :=
  if g.verbose then .error (.repeated "--verbose") else .ok { g with verbose := true }

def withNfa (g : Given) : Except UsageError Given :=
  if g.showNfa then .error (.repeated "--nfa") else .ok { g with showNfa := true }

def withGraph (g : Given) : Except UsageError Given :=
  if g.asGraph then .error (.repeated "--dot") else .ok { g with asGraph := true }

def withAlphabet (g : Given) (value : List Char) : Except UsageError Given :=
  if g.alphabet.isSome then .error (.repeated "--alphabet")
  else .ok { g with alphabet := some value }

def withExpression (g : Given) (value : String) : Except UsageError Given :=
  if g.expression.isSome then .error (.unexpected value)
  else .ok { g with expression := some value.toList }

def single (g : Given) (argument : String) : Except UsageError Given :=
  match "--alphabet=".toList.isPrefixOf? argument.toList with
  | some value => g.withAlphabet value
  | none =>
    if argument.startsWith "-" && argument != "-" then .error (.unexpected argument)
    else g.withExpression argument

def read (g : Given) : List String → Except UsageError Given
  | [] => .ok g
  | "--" :: rest => rest.foldlM withExpression g
  | "--verbose" :: rest | "-v" :: rest => do (← g.withVerbose).read rest
  | "--nfa" :: rest => do (← g.withNfa).read rest
  | "--dot" :: rest => do (← g.withGraph).read rest
  | "--alphabet" :: value :: rest | "-a" :: value :: rest =>
    do (← g.withAlphabet value.toList).read rest
  | argument :: rest => do (← g.single argument).read rest

def both (g : Given) : Except UsageError (List Char × List Char) :=
  if g.showNfa then .error (.unexpected "--nfa")
  else if g.asGraph then .error (.unexpected "--dot")
  else match g.alphabet, g.expression with
    | some a, some e => .ok (a, e)
    | none, _ => .error (.missing "--alphabet")
    | _, none => .error (.missing "EXPRESSION")

def request (g : Given) : String → Except UsageError Request
  | "convert" => .ok (.convert g.alphabet g.expression g.showNfa g.asGraph)
  | "check" => do let (a, e) ← g.both; return .check a e
  | "postfix" => do let (a, e) ← g.both; return .postfixForm a e
  | name => .error (.unknownCommand name)

end Given

/-- Only the flag for verbose output may stand in front of the command. -/
def Invocation.read (g : Given) : List String → Except UsageError Invocation
  | [] => .error .noCommand
  | "--verbose" :: rest | "-v" :: rest => do Invocation.read (← g.withVerbose) rest
  | name :: rest => do
    let g ← g.read rest
    return ⟨g.verbose, ← g.request name⟩

def Invocation.ofArguments (arguments : List String) : Except UsageError Invocation :=
  Invocation.read .nothing arguments

end RegexAutomata.CommandLine
