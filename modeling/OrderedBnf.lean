import OrderedBnf.Main
import OrderedBnf.Proofs.Bnf.Concatenation
import OrderedBnf.Proofs.Bnf.EolStyles
import OrderedBnf.Proofs.Bnf.Extraction
import OrderedBnf.Proofs.Bnf.Fragments
import OrderedBnf.Proofs.Bnf.OneLine
import OrderedBnf.Proofs.Bnf.Spelling
import OrderedBnf.Proofs.Bnf.TermNodes
import OrderedBnf.Proofs.Command.Run
import OrderedBnf.Proofs.Guarded.Bookkeeping
import OrderedBnf.Proofs.Guarded.Parser
import OrderedBnf.Proofs.Match.Derivation
import OrderedBnf.Proofs.Parse.Recursion
import OrderedBnf.Proofs.Parse.Undefined
import OrderedBnf.Proofs.Rule.Suffix
import OrderedBnf.Proofs.Text.Position
import OrderedBnf.Proofs.Workspace
