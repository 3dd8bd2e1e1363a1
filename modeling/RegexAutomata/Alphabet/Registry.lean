import RegexAutomata.Alphabet

/-! An alphabet that is changed in place by requests. Symbols are added one after the other, and each
of them could be refused when others have been added already; so every request tells the alphabet
that it leaves, whether it succeeds or fails. -/
namespace RegexAutomata.Alphabet

/-- Adds characters up to the first one that is refused. What has been added until then stays. -/
def insertAll (A : Alphabet) : List Char → Alphabet × Except Error Unit
  | [] => (A, .ok ())
  | c :: t =>
    match A.insert c with
    | .ok (B, _) => B.insertAll t
    | .error e => (A, .error e)

def register (A : Alphabet) (t : List Char) : Alphabet × Except Error Unit :=
  let symbols := t.filter fun c => !isSeparator c
  match symbols.find? isReserved with
  | some c => (A, .error (.reservedSymbol c))
  | none => A.insertAll symbols

def parse (t : List Char) : Except Error Alphabet :=
  match empty.register t with
  | (A, .ok _) => .ok A
  | (_, .error e) => .error e

/-- What can be asked of an alphabet. A text that is read, under either name, gives an alphabet that
takes its place. -/
inductive Request where
  | parse (t : List Char)
  | fromText (t : List Char)
  | register (t : List Char)
  | insert (c : Char)

/-- The alphabet that a request leaves, and its answer: whether a symbol is new, where one symbol is
added. -/
def serve (A : Alphabet) : Request → Alphabet × Except Error (Option Bool)
  | .parse t | .fromText t =>
    match parse t with
    | .ok B => (B, .ok none)
    | .error e => (A, .error e)
  | .register t =>
    let (B, answer) := A.register t
    (B, answer.map fun _ => none)
  | .insert c =>
    match A.insert c with
    | .ok (B, new) => (B, .ok (some new))
    | .error e => (A, .error e)

def after (A : Alphabet) (requests : List Request) : Alphabet :=
  requests.foldl (fun A r => (A.serve r).1) A

end RegexAutomata.Alphabet
