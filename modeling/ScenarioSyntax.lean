import ScenarioSyntax.Corpus.Case
import ScenarioSyntax.Highlight.Capture
import ScenarioSyntax.Lexer.Numbering
import ScenarioSyntax.Package.Build
import ScenarioSyntax.Package.Compatibility
import ScenarioSyntax.Parser.Parse
import ScenarioSyntax.Query.Cursor
import ScenarioSyntax.Query.Path
import ScenarioSyntax.Query.Range
import ScenarioSyntax.Schema.NodeTypes
import ScenarioSyntax.Text.Edit
import ScenarioSyntax.Text.Utf8
import ScenarioSyntax.Tree.Sexp
import ScenarioSyntax.Proofs.Grammar.Rule
import ScenarioSyntax.Proofs.Grammar.Scenario
import ScenarioSyntax.Proofs.Grammar.Ast
import ScenarioSyntax.Proofs.Automaton.Trail
import ScenarioSyntax.Proofs.Grammar.Lookahead
import ScenarioSyntax.Proofs.Automaton.Completeness
import ScenarioSyntax.Proofs.Automaton.Soundness
import ScenarioSyntax.Proofs.Automaton.Viable
import ScenarioSyntax.Proofs.Automaton.Bound
import ScenarioSyntax.Proofs.Machine.Frames
import ScenarioSyntax.Proofs.Machine.Trace
import ScenarioSyntax.Proofs.Machine.Tracks
import ScenarioSyntax.Proofs.Machine.Outcome
import ScenarioSyntax.Proofs.Machine.Halting
import ScenarioSyntax.Proofs.Machine.Recognition
import ScenarioSyntax.Proofs.Lexer.Language
import ScenarioSyntax.Proofs.Lexer.Longest
import ScenarioSyntax.Proofs.Lexer.Lexemes
import ScenarioSyntax.Proofs.Lexer.Words
import ScenarioSyntax.Proofs.Lexer.Reading
import ScenarioSyntax.Proofs.Text.FirstError
import ScenarioSyntax.Proofs.Text.Printing
import ScenarioSyntax.Proofs.Text.Acceptance
import ScenarioSyntax.Proofs.Lexer.Modes
import ScenarioSyntax.Proofs.Lexer.States
import ScenarioSyntax.Proofs.Lexer.Overrun
import ScenarioSyntax.Proofs.Repair.Trees
import ScenarioSyntax.Proofs.Repair.Openings
import ScenarioSyntax.Proofs.Repair.Whole
import ScenarioSyntax.Proofs.Repair.Links
import ScenarioSyntax.Proofs.Repair.Ways
import ScenarioSyntax.Proofs.Repair.Branches
import ScenarioSyntax.Proofs.Repair.Forks
import ScenarioSyntax.Proofs.Repair.Reductions
import ScenarioSyntax.Proofs.Repair.Recovery
import ScenarioSyntax.Proofs.Repair.Rounds
import ScenarioSyntax.Proofs.Repair.Start
import ScenarioSyntax.Proofs.Text.RoundTrip
import ScenarioSyntax.Proofs.Grammar.Count
import ScenarioSyntax.Proofs.Schema.Slots
import ScenarioSyntax.Proofs.Grammar.Subtree
import ScenarioSyntax.Proofs.Tree.Shown
import ScenarioSyntax.Proofs.Schema.Conformance
import ScenarioSyntax.Proofs.Tree.Tight
import ScenarioSyntax.Proofs.Tree.Fringe
import ScenarioSyntax.Proofs.Tree.Outline
import ScenarioSyntax.Proofs.Machine.Tight
import ScenarioSyntax.Proofs.Machine.Fringe
import ScenarioSyntax.Proofs.Machine.Lockstep
import ScenarioSyntax.Proofs.Machine.Safety
import ScenarioSyntax.Proofs.Lexer.Promotion
import ScenarioSyntax.Proofs.Lexer.Fallback
import ScenarioSyntax.Proofs.Text.Reread
import ScenarioSyntax.Proofs.Text.Keywords
import ScenarioSyntax.Proofs.Text.Places
import ScenarioSyntax.Proofs.Text.Work
import ScenarioSyntax.Proofs.Text.Decoding
import ScenarioSyntax.Proofs.Text.Pieces
import ScenarioSyntax.Proofs.Text.Lossless
import ScenarioSyntax.Proofs.Text.Encodings
import ScenarioSyntax.Proofs.Text.Respelling
import ScenarioSyntax.Proofs.Highlight.Locations
import ScenarioSyntax.Proofs.Highlight.Total
import ScenarioSyntax.Proofs.Text.Returns
import ScenarioSyntax.Proofs.Text.LineEndings
import ScenarioSyntax.Proofs.Corpus.Normal
import ScenarioSyntax.Proofs.Corpus.Trees
import ScenarioSyntax.Proofs.Corpus.Blocks
import ScenarioSyntax.Proofs.Text.Edits
import ScenarioSyntax.Proofs.Query.Navigation
import ScenarioSyntax.Proofs.Package.Contract
import ScenarioSyntax.Proofs.Text.Faulty
