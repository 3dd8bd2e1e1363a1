import RegexAutomata.Text.Unprintable

/-! Quoted text: between double quotes, with a backslash before a quote or a backslash, and with
every character that has no printed form of its own written by an escape. -/
namespace RegexAutomata

def escaped (c : Char) : List Char :=
  if c = '"' ∨ c = '\\' then ['\\', c]
  else if c.toNat = 0 then ['\\', '0']
  else if c = '\t' then ['\\', 't']
  else if c = '\r' then ['\\', 'r']
  else if c = '\n' then ['\\', 'n']
  else if isUnprintable c then '\\' :: 'u' :: '\x7b' :: Nat.toDigits 16 c.toNat ++ ['\x7d']
  else [c]

def quoted (t : List Char) : List Char := '"' :: t.flatMap escaped ++ ['"']

end RegexAutomata
