import ScriptTree.Grammar.Phrase
import ScriptTree.Main
import ScriptTree.Token.Form
import ScriptTree.Tree.WellFormed
import ScriptTree.Proofs.Climbing
import ScriptTree.Proofs.Recognition
import ScriptTree.Proofs.Spelling
import ScriptTree.Proofs.Flattening
import ScriptTree.Proofs.RoundTrip
import ScriptTree.Proofs.Lookahead
import ScriptTree.Proofs.WellFormedness
import ScriptTree.Proofs.Depth
import ScriptTree.Grammar.Lexical
import ScriptTree.Proofs.LongestMatch
import ScriptTree.Proofs.Separation
import ScriptTree.Proofs.Reports
import ScriptTree.Proofs.ViablePrefix
import ScriptTree.Parser.Window
import ScriptTree.Proofs.Legibility
import ScriptTree.Parser.Routine
import ScriptTree.Proofs.Resumption
import ScriptTree.Proofs.Policies
import ScriptTree.Proofs.Settling
import ScriptTree.Proofs.Encoding
import ScriptTree.Proofs.Modes
import ScriptTree.Proofs.Composition
import ScriptTree.Proofs.LineIndependence
import ScriptTree.Proofs.Roles
import ScriptTree.Proofs.Contexts
import ScriptTree.Proofs.Validity
import ScriptTree.Proofs.Dumps
import ScriptTree.Proofs.Beginnings
import ScriptTree.Proofs.Overflow
import ScriptTree.Proofs.Extent
import ScriptTree.Proofs.Identity
import ScriptTree.Proofs.Progress
import ScriptTree.Lexer.Cursor
import ScriptTree.Lexer.Scan
import ScriptTree.Proofs.Restarting
