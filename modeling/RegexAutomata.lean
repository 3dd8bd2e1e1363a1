import RegexAutomata.Main
import RegexAutomata.Proofs.Alphabet.Registry
import RegexAutomata.Proofs.CommandLine.Prompts
import RegexAutomata.Proofs.Dfa.Graph
import RegexAutomata.Proofs.Dfa.Numbering
import RegexAutomata.Proofs.Dfa.Origins
import RegexAutomata.Proofs.Dfa.Table
import RegexAutomata.Proofs.Dfa.Worklist
import RegexAutomata.Proofs.Expression.Position
import RegexAutomata.Proofs.Expression.Rules
import RegexAutomata.Proofs.Nfa.Search
import RegexAutomata.Proofs.Nfa.Shape
import RegexAutomata.Proofs.Postfix.Tokens
import RegexAutomata.Proofs.Postfix.Tree
import RegexAutomata.Proofs.Session.Agreement
import RegexAutomata.Proofs.Session.Conversion
import RegexAutomata.Proofs.Session.History
import RegexAutomata.Proofs.Session.Listing
import RegexAutomata.Proofs.Session.Renaming
import RegexAutomata.Proofs.Session.Report
import RegexAutomata.Proofs.Session.Spelling
import RegexAutomata.Proofs.Session.Trim
import RegexAutomata.Proofs.Session.Unjoined
