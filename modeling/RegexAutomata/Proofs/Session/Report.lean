import RegexAutomata.Proofs.Dfa.Report
import RegexAutomata.Proofs.Nfa.Report
import RegexAutomata.Proofs.Session.Stages

/-! The report of a conversion. One that fails reports nothing, and one that succeeds reports what
the stages have done, in their order. -/
namespace RegexAutomata
open Log
variable {log : List Event}

namespace Session
variable {s : Session} {e : List Char} {c : Conversion}

end Session

end RegexAutomata
