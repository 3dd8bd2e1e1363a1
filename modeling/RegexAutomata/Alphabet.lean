import RegexAutomata.Keyed
import RegexAutomata.Role
import RegexAutomata.Text.WhiteSpace

/-! Alphabets: the symbols declared for a conversion, in ascending order. No symbol is reserved,
a comma or white space, since commas and white space part the symbols of a declaration. -/
namespace RegexAutomata

def isSeparator (c : Char) : Bool := c == ',' || isWhiteSpace c

def canBeSymbol (c : Char) : Bool := !isReserved c && !isSeparator c

structure Alphabet where
  symbols : Keyed Char.toNat
  symbolic : ∀ c ∈ symbols.toList, canBeSymbol c = true

namespace Alphabet

inductive Error where
  | reservedSymbol (c : Char)
  | empty
deriving DecidableEq

def Error.message : Error → String
  | .reservedSymbol c => s!"'{c}' is a reserved operator and cannot be an alphabet symbol"
  | .empty => "no alphabet symbols were declared"

instance : DecidableEq Alphabet := fun A B =>
  decidable_of_iff (A.symbols = B.symbols)
    ⟨fun h => by cases A; cases B; cases h; rfl, fun h => h ▸ rfl⟩

def empty : Alphabet := ⟨.empty, by simp [Keyed.empty]⟩

def toList (A : Alphabet) : List Char := A.symbols.toList

def size (A : Alphabet) : Nat := A.symbols.size

def isEmpty (A : Alphabet) : Bool := A.symbols.isEmpty

def contains (A : Alphabet) (c : Char) : Bool := A.toList.contains c

def allows (A : Alphabet) (c : Char) : Bool := A.contains c || isReserved c

def add (A : Alphabet) (c : Char) (h : canBeSymbol c = true) : Alphabet :=
  ⟨A.symbols.insert c, fun x hx => by
    rcases Keyed.mem_of_mem_place hx with rfl | hx
    · exact h
    · exact A.symbolic x hx⟩

/-- Adds one symbol; the flag says whether it is new. -/
def insert (A : Alphabet) (c : Char) : Except Error (Alphabet × Bool) :=
  if h : canBeSymbol c = true then .ok (A.add c h, !A.contains c) else .error (.reservedSymbol c)

def extend (A : Alphabet) : List Char → Alphabet
  | [] => A
  | c :: t => if h : canBeSymbol c = true then (A.add c h).extend t else A.extend t

def declare (A : Alphabet) (t : List Char) : Except Error Alphabet :=
  match t.find? isReserved with
  | some c => .error (.reservedSymbol c)
  | none => .ok (A.extend t)

def ofText (t : List Char) : Except Error Alphabet := empty.declare t

def text (A : Alphabet) : List Char :=
  '\x7b' :: List.intercalate [',', ' '] (A.toList.map fun c => [c]) ++ ['\x7d']

end Alphabet
end RegexAutomata
