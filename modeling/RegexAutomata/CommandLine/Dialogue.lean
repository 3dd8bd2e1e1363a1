/-! Dialogues with a user: text is printed, lines are asked for, and at the end there is an exit
code. A dialogue is a value; given all input at once, it has one transcript. -/
namespace RegexAutomata.CommandLine

/-- Lines come as bytes, with their line end if they have one. -/
inductive Dialogue where
  | finish (exitCode : Nat)
  | print (text : String) (next : Dialogue)
  | report (text : String) (next : Dialogue)
  | ask (next : List UInt8 → Dialogue)

structure Transcript where
  exitCode : Nat
  output : String
  errors : String
deriving DecidableEq

def lineFeed : UInt8 := 10

def firstLine (input : List UInt8) : List UInt8 :=
  input.takeWhile (· != lineFeed) ++ (input.dropWhile (· != lineFeed)).take 1

def afterLine (input : List UInt8) : List UInt8 := (input.dropWhile (· != lineFeed)).drop 1

theorem firstLine_append_afterLine (input : List UInt8) :
    firstLine input ++ afterLine input = input := by
  rw [firstLine, afterLine, List.append_assoc, List.take_append_drop,
    List.takeWhile_append_dropWhile]

def Dialogue.transcript : Dialogue → List UInt8 → Transcript
  | .finish code, _ => ⟨code, "", ""⟩
  | .print text next, input =>
    let t := next.transcript input
    { t with output := text ++ t.output }
  | .report text next, input =>
    let t := next.transcript input
    { t with errors := text ++ t.errors }
  | .ask next, input => (next (firstLine input)).transcript (afterLine input)

def isLineEnd (c : Char) : Bool := c == '\r' || c == '\n'

def trimLineEnd (t : List Char) : List Char := (t.reverse.dropWhile isLineEnd).reverse

def lineText? (line : List UInt8) : Option (List Char) :=
  (ByteArray.mk line.toArray).utf8Decode?.map fun t => trimLineEnd t.toList

end RegexAutomata.CommandLine
