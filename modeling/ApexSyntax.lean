import ApexSyntax.Check.Event
import ApexSyntax.Check.Failure
import ApexSyntax.Check.Files
import ApexSyntax.Check.Project
import ApexSyntax.Check.Result
import ApexSyntax.Check.Source
import ApexSyntax.CommandLine.Arguments
import ApexSyntax.CommandLine.Run
import ApexSyntax.Config.Basic
import ApexSyntax.Config.Settings
import ApexSyntax.Diagnostic
import ApexSyntax.FileKind
import ApexSyntax.FileSystem.Basic
import ApexSyntax.FileSystem.Below
import ApexSyntax.FileSystem.Edit
import ApexSyntax.FileSystem.Listing
import ApexSyntax.Grammar.Declarations
import ApexSyntax.Grammar.Expressions
import ApexSyntax.Grammar.Lookahead
import ApexSyntax.Grammar.Parser
import ApexSyntax.Grammar.Queries
import ApexSyntax.Grammar.Statements
import ApexSyntax.Grammar.Step
import ApexSyntax.Grammar.Types
import ApexSyntax.Json.Basic
import ApexSyntax.Json.Read
import ApexSyntax.Listener
import ApexSyntax.Main
import ApexSyntax.Path
import ApexSyntax.Project.Descriptor
import ApexSyntax.Project.Packages
import ApexSyntax.Report
import ApexSyntax.Text.Alphabetic
import ApexSyntax.Text.Cursor
import ApexSyntax.Text.OneLine
import ApexSyntax.Text.Reader
import ApexSyntax.Text.Utf8
import ApexSyntax.Token.Basic
import ApexSyntax.Token.Kind
import ApexSyntax.Token.Lexeme
import ApexSyntax.Token.Lexer
import ApexSyntax.Token.Stream
import ApexSyntax.Toml.Basic
import ApexSyntax.Toml.Read
import ApexSyntax.Toml.Scalar
import ApexSyntax.Tree.Basic
import ApexSyntax.Tree.Builder
import ApexSyntax.Tree.Rule
import ApexSyntax.Yaml.Basic
import ApexSyntax.Yaml.Read
import ApexSyntax.Yaml.Scalar
import ApexSyntax.Proofs.Parser.Runs
import ApexSyntax.Proofs.Parser.Leaves
import ApexSyntax.Proofs.Parser.Effort
import ApexSyntax.Proofs.Parser.Shape
import ApexSyntax.Proofs.Parser.Lossless
import ApexSyntax.Proofs.Parser.Observers
import ApexSyntax.Proofs.Lexer.Calls
import ApexSyntax.Proofs.Listeners
import ApexSyntax.Proofs.Parser.FailFast
import ApexSyntax.Proofs.Parser.Recovery
import ApexSyntax.Proofs.Lexer.Lexemes
import ApexSyntax.Proofs.Lexer.Reading
import ApexSyntax.Proofs.Lexer.Answers
import ApexSyntax.Proofs.Lexer.Tiling
import ApexSyntax.Proofs.Lexer.Losses
import ApexSyntax.Proofs.Lexer.Intervals
import ApexSyntax.Proofs.Lexer.Resuming
import ApexSyntax.Proofs.Lexer.Places
import ApexSyntax.Proofs.Lexer.Positions
import ApexSyntax.Proofs.Lexer.Standing
import ApexSyntax.Proofs.Lexer.Spacing
import ApexSyntax.Proofs.Lexer.Touching
import ApexSyntax.Proofs.Lexer.Kinds
import ApexSyntax.Proofs.Lexer.Languages
import ApexSyntax.Proofs.Lexer.Literals
import ApexSyntax.Proofs.Lexer.Dates
import ApexSyntax.Proofs.Parser.History
import ApexSyntax.Proofs.Parser.Scans
import ApexSyntax.Proofs.Parser.Termination
import ApexSyntax.Proofs.Parser.Ending
import ApexSyntax.Proofs.Parser.Silence
import ApexSyntax.Proofs.Parser.Reports
import ApexSyntax.Proofs.Parser.Aborts
import ApexSyntax.Proofs.FileSystem.Spellings
import ApexSyntax.Proofs.FileSystem.Trees
import ApexSyntax.Proofs.FileSystem.Walks
import ApexSyntax.Proofs.Check.CleanVerdict
import ApexSyntax.Proofs.Folding.Texts
import ApexSyntax.Proofs.Folding.Lexers
import ApexSyntax.Proofs.Folding.Lookaheads
import ApexSyntax.Proofs.Folding.Parsers
import ApexSyntax.Proofs.Folding.Verdict
import ApexSyntax.Proofs.Parser.Productions
import ApexSyntax.Proofs.Parser.Derivations
import ApexSyntax.Proofs.Parser.Growth
import ApexSyntax.Proofs.Parser.ExpressionGrowth
import ApexSyntax.Proofs.Parser.StatementGrowth
import ApexSyntax.Proofs.Parser.Grammatical
import ApexSyntax.Proofs.Parser.Shifts
import ApexSyntax.Proofs.Printing.Pieces
import ApexSyntax.Proofs.Printing.Printed
import ApexSyntax.Proofs.Printing.Expressions
import ApexSyntax.Proofs.Printing.Climbing
import ApexSyntax.Proofs.Printing.ExpressionRoundTrip
import ApexSyntax.Proofs.Printing.Queries
import ApexSyntax.Proofs.Printing.QueryParts
import ApexSyntax.Proofs.Printing.QueryRoundTrip
import ApexSyntax.Proofs.Parser.Trees
import ApexSyntax.Proofs.Layout.Alike
import ApexSyntax.Proofs.Layout.Parsers
import ApexSyntax.Proofs.Layout.Verdict
import ApexSyntax.Proofs.Lexer.Words
import ApexSyntax.Proofs.Nesting.Words
import ApexSyntax.Proofs.Nesting.Steps
import ApexSyntax.Proofs.Nesting.Units
import ApexSyntax.Proofs.Nesting.Rounds
import ApexSyntax.Proofs.Nesting.Filling
import ApexSyntax.Proofs.Nesting.Searches
import ApexSyntax.Proofs.Replay.Trees
import ApexSyntax.Proofs.Replay.Steps
import ApexSyntax.Proofs.Replay.Takes
import ApexSyntax.Proofs.Replay.Seals
import ApexSyntax.Proofs.Replay.Windows
import ApexSyntax.Proofs.Replay.Scripts
import ApexSyntax.Proofs.Replay.Angles
import ApexSyntax.Proofs.Replay.Braces
import ApexSyntax.Proofs.Parser.EndLeaves
import ApexSyntax.Proofs.Parser.EndSkips
import ApexSyntax.Proofs.Replay.LastBrace
import ApexSyntax.Proofs.Replay.UnitEnds
import ApexSyntax.Proofs.Printing.Bodies
import ApexSyntax.Proofs.Printing.Declarations
import ApexSyntax.Proofs.Printing.DeclarationParts
import ApexSyntax.Proofs.Printing.DeclarationRoundTrip
import ApexSyntax.Proofs.FileSystem.FilesBelow
import ApexSyntax.Proofs.FileSystem.Links
import ApexSyntax.Proofs.FileSystem.CleanPaths
import ApexSyntax.Proofs.FileSystem.Parents
import ApexSyntax.Proofs.FileSystem.Descriptors
import ApexSyntax.Proofs.Check.Directories
import ApexSyntax.Proofs.Check.RootSpellings
import ApexSyntax.Proofs.Check.Packages
import ApexSyntax.Proofs.Lookahead.TypePhrases
import ApexSyntax.Proofs.Lookahead.Types
import ApexSyntax.Proofs.Lookahead.Declarations
import ApexSyntax.Proofs.Operands.Ends
import ApexSyntax.Proofs.Operands.Stops
import ApexSyntax.Proofs.Operands.Sights
import ApexSyntax.Proofs.Operands.Grounds
import ApexSyntax.Proofs.Operands.Alone
import ApexSyntax.Proofs.Operands.Casts
import ApexSyntax.Proofs.Operands.Openings
import ApexSyntax.Proofs.Operands.Indexes
import ApexSyntax.Proofs.Operands.Filters
import ApexSyntax.Proofs.Operands.Binds
import ApexSyntax.Proofs.Check.FileRoots
import ApexSyntax.Proofs.Check.RepeatedKinds
import ApexSyntax.Proofs.Config.Files
import ApexSyntax.Proofs.Config.Roots
import ApexSyntax.Proofs.Check.CutShort
import ApexSyntax.Proofs.Check.Requests
import ApexSyntax.Proofs.Text.Lines
import ApexSyntax.Proofs.Parser.Messages
import ApexSyntax.Proofs.Check.Lines
import ApexSyntax.Proofs.Json.RoundTrip
import ApexSyntax.Proofs.Json.DiagnosticLines
import ApexSyntax.Proofs.Text.Operations
import ApexSyntax.Proofs.Text.WordCursors
import ApexSyntax.Proofs.Tree.Building
import ApexSyntax.Proofs.Lexer.Streams
import ApexSyntax.Proofs.Report.Colours
import ApexSyntax.Proofs.Report.Summaries
