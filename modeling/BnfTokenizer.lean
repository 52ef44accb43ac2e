import BnfTokenizer.Text.Lines
import BnfTokenizer.Text.Position
import BnfTokenizer.Text.Escape
import BnfTokenizer.Palette
import BnfTokenizer.Grammar.Basic
import BnfTokenizer.Grammar.Reachable
import BnfTokenizer.Grammar.Dump
import BnfTokenizer.Grammar.Nullable
import BnfTokenizer.Grammar.Validation
import BnfTokenizer.ParseTree.Basic
import BnfTokenizer.ParseTree.Builder
import BnfTokenizer.ParseTree.Edit
import BnfTokenizer.ParseTree.Outline
import BnfTokenizer.ParseTree.Query
import BnfTokenizer.ParseTree.View
import BnfTokenizer.ParseTree.Cull
import BnfTokenizer.Match.Event
import BnfTokenizer.Match.Transcript
import BnfTokenizer.Match.Basic
import BnfTokenizer.Match.Run
import BnfTokenizer.Lexer
import BnfTokenizer.Dialect.Draft
import BnfTokenizer.Dialect.Error
import BnfTokenizer.Dialect.Symbols
import BnfTokenizer.Dialect.Parse
import BnfTokenizer.Dialect.RuleTable
import BnfTokenizer.Dialect.Lowering
import BnfTokenizer.Dialect.Compile
import BnfTokenizer.Json.Basic
import BnfTokenizer.Diagnostic.Paint
import BnfTokenizer.Diagnostic.Width
import BnfTokenizer.Diagnostic.Source
import BnfTokenizer.Diagnostic.Window
import BnfTokenizer.Diagnostic.Basic
import BnfTokenizer.Diagnostic.Render
import BnfTokenizer.Files
import BnfTokenizer.CommandLine.Settings
import BnfTokenizer.CommandLine.Usage
import BnfTokenizer.CommandLine.Load
import BnfTokenizer.CommandLine.Request
import BnfTokenizer.CommandLine.Response
import BnfTokenizer.CommandLine.Run
import BnfTokenizer.Main
import BnfTokenizer.Proofs.Text.Lines
import BnfTokenizer.Proofs.Text.Slicing
import BnfTokenizer.Proofs.Text.LineColumns
import BnfTokenizer.Proofs.Grammar.Reachability
import BnfTokenizer.Proofs.Grammar.Nullability
import BnfTokenizer.Proofs.Grammar.Preorder
import BnfTokenizer.Proofs.Grammar.RuleOrder
import BnfTokenizer.Proofs.Grammar.Fixpoint
import BnfTokenizer.Proofs.Grammar.Rank
import BnfTokenizer.Proofs.Grammar.Twins
import BnfTokenizer.Proofs.Grammar.Defects
import BnfTokenizer.Proofs.Grammar.Exactness
import BnfTokenizer.Proofs.Grammar.Writing
import BnfTokenizer.Proofs.Grammar.Cycles
import BnfTokenizer.Proofs.Grammar.Unrolling
import BnfTokenizer.Proofs.Match.Derivation
import BnfTokenizer.Proofs.Match.Layout
import BnfTokenizer.Proofs.Match.Trailing
import BnfTokenizer.Proofs.Match.Adequacy
import BnfTokenizer.Proofs.Match.Lockstep
import BnfTokenizer.Proofs.Match.Termination
import BnfTokenizer.Proofs.Match.Backtracking
import BnfTokenizer.Proofs.Match.Coverage
import BnfTokenizer.Proofs.Match.Numbering
import BnfTokenizer.Proofs.Match.Protocol
import BnfTokenizer.Proofs.Match.Budget
import BnfTokenizer.Proofs.Match.Entries
import BnfTokenizer.Proofs.Match.Notes
import BnfTokenizer.Proofs.Match.Thresholds
import BnfTokenizer.Proofs.Match.Furthest
import BnfTokenizer.Proofs.Match.Registers
import BnfTokenizer.Proofs.Match.Shifts
import BnfTokenizer.Proofs.Match.Positions
import BnfTokenizer.Proofs.Match.Transcription
import BnfTokenizer.Proofs.ParseTree.Cull
import BnfTokenizer.Proofs.ParseTree.Walks
import BnfTokenizer.Proofs.ParseTree.Forest
import BnfTokenizer.Proofs.ParseTree.Edits
import BnfTokenizer.Proofs.ParseTree.Rewrite
import BnfTokenizer.Proofs.ParseTree.Root
import BnfTokenizer.Proofs.ParseTree.Replacement
import BnfTokenizer.Proofs.ParseTree.Traversals
import BnfTokenizer.Proofs.ParseTree.Lossless
import BnfTokenizer.Proofs.ParseTree.Outline
import BnfTokenizer.Proofs.ParseTree.SourceOrder
import BnfTokenizer.Proofs.ParseTree.Views
import BnfTokenizer.Proofs.Json.Spelling
import BnfTokenizer.Proofs.Json.Decoding
import BnfTokenizer.Proofs.Dialect.Expression
import BnfTokenizer.Proofs.Dialect.Syntax
import BnfTokenizer.Proofs.Dialect.Tabulation
import BnfTokenizer.Proofs.Dialect.Linking
import BnfTokenizer.Proofs.Dialect.Reading
import BnfTokenizer.Proofs.Dialect.Aliases
import BnfTokenizer.Proofs.Dialect.Drafting
import BnfTokenizer.Proofs.Dialect.Ranges
import BnfTokenizer.Proofs.Dialect.Recognition
import BnfTokenizer.Proofs.Dialect.Reports
import BnfTokenizer.Proofs.Dialect.Inversion
import BnfTokenizer.Proofs.Dialect.Lexical
import BnfTokenizer.Proofs.Dialect.Placement
import BnfTokenizer.Proofs.Dialect.Atoms
import BnfTokenizer.Proofs.Dialect.Standing
import BnfTokenizer.Proofs.Dialect.Elements
import BnfTokenizer.Proofs.Dialect.Shapes
import BnfTokenizer.Proofs.Dialect.Statements
import BnfTokenizer.Proofs.Dialect.Escapes
import BnfTokenizer.Proofs.Dialect.Flattening
import BnfTokenizer.Proofs.Dialect.Sayable
import BnfTokenizer.Proofs.Dialect.Names
import BnfTokenizer.Proofs.Dialect.Newlines
import BnfTokenizer.Proofs.Dialect.Tidiness
import BnfTokenizer.Proofs.Dialect.Tokens
import BnfTokenizer.Proofs.Dialect.Rows
import BnfTokenizer.Proofs.Dialect.Folding
import BnfTokenizer.Proofs.Dialect.Passes
import BnfTokenizer.Proofs.Dialect.Lowering
import BnfTokenizer.Proofs.Dialect.Assembly
import BnfTokenizer.Proofs.Dialect.LineEndings
import BnfTokenizer.Proofs.Dialect.Sentences
import BnfTokenizer.Proofs.Dialect.Circularity
import BnfTokenizer.Proofs.Dialect.Parallel
import BnfTokenizer.Proofs.Dialect.Printing
import BnfTokenizer.Proofs.Dialect.Substitution
import BnfTokenizer.Proofs.Dialect.Counterparts
import BnfTokenizer.Proofs.Dialect.Dumping
import BnfTokenizer.Proofs.Dialect.Dependence
import BnfTokenizer.Proofs.Dialect.Mentions
import BnfTokenizer.Proofs.Dialect.RoundTrip
import BnfTokenizer.Proofs.Dialect.Endings
import BnfTokenizer.Proofs.Dialect.Labels
import BnfTokenizer.Proofs.Dialect.Openings
import BnfTokenizer.Proofs.Dialect.Undefined
import BnfTokenizer.Proofs.Dialect.Culprits
import BnfTokenizer.Proofs.Dialect.Dangling
import BnfTokenizer.Proofs.Diagnostic.Origins
import BnfTokenizer.Proofs.Diagnostic.Places
import BnfTokenizer.Proofs.CommandLine.Sources
