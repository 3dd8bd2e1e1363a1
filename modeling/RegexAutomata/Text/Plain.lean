/-! Plain text: what a log keeps of a line. Characters that command a terminal and show nothing
are left out, and with them the sequences that the escape character begins. -/
namespace RegexAutomata

/-- The controls of ASCII, but for those that lay text out: tab, line feed, form feed and carriage
return. -/
def isTerminalControl (c : Char) : Bool :=
  c.toNat ≤ 0x08 || c.toNat = 0x0B || (0x0E ≤ c.toNat && c.toNat ≤ 0x1F) || c.toNat = 0x7F

/-- The characters from the digit zero to the tilde end a sequence, and two controls cancel it. -/
def endsSequence (c : Char) : Bool :=
  (0x30 ≤ c.toNat && c.toNat ≤ 0x7E) || c = '\x18' || c = '\x1a'

/-- Goes on inside or outside of a sequence. The escape character begins a sequence wherever it
stands, and all of it is left out, its end as well. No sequence has parameters: a bracket is an end
like any other, because in a log the escape character has a comma or a brace right behind it. -/
def plainFrom (inSequence : Bool) : List Char → List Char
  | [] => []
  | c :: t =>
    if c = '\x1b' then plainFrom true t
    else if inSequence then plainFrom (!endsSequence c) t
    else if isTerminalControl c then plainFrom false t
    else c :: plainFrom false t

def plain (t : List Char) : List Char := plainFrom false t

end RegexAutomata
