import Reparse.Bisection
import Reparse.Grammar.Basic
import Reparse.Grammar.Coloring
import Reparse.Grammar.Cycles
import Reparse.Grammar.Declaration
import Reparse.Grammar.Language
import Reparse.Grammar.LeftRecursion
import Reparse.Grammar.LexicalLanguage
import Reparse.Grammar.Nullability
import Reparse.Grammar.Pattern
import Reparse.Grammar.Rule
import Reparse.Grammar.Slices
import Reparse.Grammar.Symbol
import Reparse.Grammar.Validity
import Reparse.Language.JsonValues
import Reparse.Language.MiniGo
import Reparse.Parse.ByValue
import Reparse.Parse.Catalogue
import Reparse.Parse.Checked
import Reparse.Parse.Derivation
import Reparse.Parse.Exhaustive
import Reparse.Parse.History
import Reparse.Parse.Matching
import Reparse.Parse.Memory
import Reparse.Parse.Parser
import Reparse.Parse.Recursion
import Reparse.Parse.Search
import Reparse.Parse.Statistics
import Reparse.Proofs.Grammar.Accepted
import Reparse.Proofs.Grammar.Calls
import Reparse.Proofs.Grammar.Coloring
import Reparse.Proofs.Grammar.Cycles
import Reparse.Proofs.Grammar.Names
import Reparse.Proofs.Grammar.Numbering
import Reparse.Proofs.Grammar.Ranking
import Reparse.Proofs.Grammar.Recognition
import Reparse.Proofs.Grammar.Refusals
import Reparse.Proofs.Grammar.Rejection
import Reparse.Proofs.Grammar.Resolution
import Reparse.Proofs.Grammar.Slices
import Reparse.Proofs.Grammar.Table
import Reparse.Proofs.Grammar.Validity
import Reparse.Proofs.Language.Accepted
import Reparse.Proofs.Language.Leaves
import Reparse.Proofs.Language.Marks
import Reparse.Proofs.Language.Nearsight
import Reparse.Proofs.Language.Rounds
import Reparse.Proofs.Language.Words
import Reparse.Proofs.Outcome
import Reparse.Proofs.Pairs
import Reparse.Proofs.Parse.Accounts
import Reparse.Proofs.Parse.ByValue
import Reparse.Proofs.Parse.Changes
import Reparse.Proofs.Parse.Checked
import Reparse.Proofs.Parse.Composition
import Reparse.Proofs.Parse.Descent
import Reparse.Proofs.Parse.ErrorNodes
import Reparse.Proofs.Parse.Evaluation
import Reparse.Proofs.Parse.Exhaustive
import Reparse.Proofs.Parse.Extents
import Reparse.Proofs.Parse.Faithful
import Reparse.Proofs.Parse.Grammatical
import Reparse.Proofs.Parse.Kinship
import Reparse.Proofs.Parse.Leaves
import Reparse.Proofs.Parse.Lockstep
import Reparse.Proofs.Parse.Lookahead
import Reparse.Proofs.Parse.Memory
import Reparse.Proofs.Parse.Outcomes
import Reparse.Proofs.Parse.Preservation
import Reparse.Proofs.Parse.Provenance
import Reparse.Proofs.Parse.Recovery
import Reparse.Proofs.Parse.Reuse
import Reparse.Proofs.Parse.Roots
import Reparse.Proofs.Parse.Rounds
import Reparse.Proofs.Parse.Soundness
import Reparse.Proofs.Parse.Statistics
import Reparse.Proofs.Parse.Takeover
import Reparse.Proofs.Parse.Termination
import Reparse.Proofs.Parse.WellFormed
import Reparse.Proofs.Parse.Yield
import Reparse.Proofs.Text.Edits
import Reparse.Proofs.Token.Edges
import Reparse.Proofs.Token.Examined
import Reparse.Proofs.Token.Locality
import Reparse.Proofs.Token.Loop
import Reparse.Proofs.Token.Munch
import Reparse.Proofs.Token.Nearsight
import Reparse.Proofs.Token.Prefix
import Reparse.Proofs.Tree.Below
import Reparse.Proofs.Tree.Correspondence
import Reparse.Proofs.Tree.Counts
import Reparse.Proofs.Tree.CursorPaths
import Reparse.Proofs.Tree.Damage
import Reparse.Proofs.Tree.Difference
import Reparse.Proofs.Tree.Equality
import Reparse.Proofs.Tree.Geometry
import Reparse.Proofs.Tree.Identity
import Reparse.Proofs.Tree.Order
import Reparse.Proofs.Tree.PathFold
import Reparse.Proofs.Tree.Ranges
import Reparse.Proofs.Tree.Rendering
import Reparse.Proofs.Tree.Restoration
import Reparse.Proofs.Tree.Survival
import Reparse.Proofs.Tree.Traversal
import Reparse.Text.Decimal
import Reparse.Text.Edit
import Reparse.Text.Offset
import Reparse.Text.Printable
import Reparse.Text.Quoted
import Reparse.Text.Span
import Reparse.Text.Utf8
import Reparse.Token.Lexeme
import Reparse.Token.List
import Reparse.Token.Loop
import Reparse.Token.Munch
import Reparse.Tree.Basic
import Reparse.Tree.Checked
import Reparse.Tree.Comparison
import Reparse.Tree.Cursor
import Reparse.Tree.Difference
import Reparse.Tree.Equality
import Reparse.Tree.FoldRun
import Reparse.Tree.Node
import Reparse.Tree.Outline
import Reparse.Tree.Path
import Reparse.Tree.PathCursor
import Reparse.Tree.PathFold
import Reparse.Tree.Rendering
import Reparse.Tree.Shape
import Reparse.Tree.Sharing
import Reparse.Tree.Shell
import Reparse.Tree.Sketch
import Reparse.Tree.Tour
import Reparse.Tree.Traversal
import Reparse.Tree.WellFormed
import Reparse.Workspace.Basic
import Reparse.Workspace.Session
import Reparse.Workspace.Slots
