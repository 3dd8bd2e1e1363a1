import RegexAutomata.CommandLine.Commands

/-! The program: plays the dialogue of its arguments on the standard streams. -/
namespace RegexAutomata.CommandLine

/-- Reads bytes up to a line feed or the end of the input. -/
partial def readLine (input : IO.FS.Stream) (line : List UInt8) : IO (List UInt8) := do
  match (← input.read 1).toList with
  | [] => return line.reverse
  | b :: _ => if b == lineFeed then return (b :: line).reverse else readLine input (b :: line)

def play : Dialogue → IO UInt32
  | .finish code => return code.toUInt32
  | .print text next => do
    let output ← IO.getStdout
    output.putStr text
    output.flush
    play next
  | .report text next => do
    IO.eprint text
    play next
  | .ask next => do play (next (← readLine (← IO.getStdin) []))

end RegexAutomata.CommandLine

open RegexAutomata.CommandLine in
def main (arguments : List String) : IO UInt32 :=
  match Invocation.ofArguments arguments with
  | .ok i => play i.dialogue
  | .error e => do
    IO.eprintln s!"error: {e.message}"
    return 2
