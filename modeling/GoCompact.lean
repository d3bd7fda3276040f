import GoCompact.Command.Arguments
import GoCompact.Command.Directory
import GoCompact.Command.Run
import GoCompact.Command.Utf8
import GoCompact.Diagnostic
import GoCompact.Grammar.Basic
import GoCompact.Grammar.Cursor
import GoCompact.Grammar.Declaration
import GoCompact.Grammar.Expression
import GoCompact.Grammar.Fragment
import GoCompact.Grammar.Statement
import GoCompact.Grammar.Type
import GoCompact.Grammar.TypeParameter
import GoCompact.Journal
import GoCompact.Json.Binary64
import GoCompact.Json.Printer
import GoCompact.Json.Reader
import GoCompact.Json.Value
import GoCompact.Layout.Adjacency
import GoCompact.Layout.Emission
import GoCompact.Layout.Render
import GoCompact.Layout.Rule
import GoCompact.Limit
import GoCompact.Location
import GoCompact.Main
import GoCompact.Minify
import GoCompact.Proofs.Document.Canonical
import GoCompact.Proofs.Document.Declared
import GoCompact.Proofs.Document.Merged
import GoCompact.Proofs.Document.Normal
import GoCompact.Proofs.Grammar.Built
import GoCompact.Proofs.Grammar.Exposed
import GoCompact.Proofs.Grammar.Grouping
import GoCompact.Proofs.Grammar.Guard.Declaration
import GoCompact.Proofs.Grammar.Guard.Expression
import GoCompact.Proofs.Grammar.Guard.Fragment
import GoCompact.Proofs.Grammar.Guard.Statement
import GoCompact.Proofs.Grammar.Guard.Type
import GoCompact.Proofs.Grammar.Independence
import GoCompact.Proofs.Grammar.Levels
import GoCompact.Proofs.Grammar.Lookahead
import GoCompact.Proofs.Grammar.Mirror.Basic
import GoCompact.Proofs.Grammar.Mirror.Declaration
import GoCompact.Proofs.Grammar.Mirror.Expression
import GoCompact.Proofs.Grammar.Mirror.Fragment
import GoCompact.Proofs.Grammar.Mirror.Relocation
import GoCompact.Proofs.Grammar.Mirror.Statement
import GoCompact.Proofs.Grammar.Mirror.Type
import GoCompact.Proofs.Grammar.Nesting
import GoCompact.Proofs.Grammar.Parts
import GoCompact.Proofs.Grammar.Place
import GoCompact.Proofs.Grammar.Plain
import GoCompact.Proofs.Grammar.Reading
import GoCompact.Proofs.Grammar.Run
import GoCompact.Proofs.Grammar.Shapes
import GoCompact.Proofs.Grammar.Simple
import GoCompact.Proofs.Grammar.Sound.Basic
import GoCompact.Proofs.Grammar.Sound.Declaration
import GoCompact.Proofs.Grammar.Sound.Expression
import GoCompact.Proofs.Grammar.Sound.Fragment
import GoCompact.Proofs.Grammar.Sound.Header
import GoCompact.Proofs.Grammar.Sound.Operand
import GoCompact.Proofs.Grammar.Sound.Parameter
import GoCompact.Proofs.Grammar.Sound.Primary
import GoCompact.Proofs.Grammar.Sound.Statement
import GoCompact.Proofs.Grammar.Sound.Type
import GoCompact.Proofs.Grammar.Sound.TypeLiteral
import GoCompact.Proofs.Grammar.Sound.TypeSpec
import GoCompact.Proofs.Grammar.Spans
import GoCompact.Proofs.Grammar.TypeOperand
import GoCompact.Proofs.Grammar.TypePosition
import GoCompact.Proofs.Grammar.Variable
import GoCompact.Proofs.Grammar.Yields
import GoCompact.Proofs.Json.RoundTrip
import GoCompact.Proofs.Json.Scalar
import GoCompact.Proofs.Layout.Adjacency
import GoCompact.Proofs.Layout.Chain
import GoCompact.Proofs.Layout.Emitted
import GoCompact.Proofs.Layout.Fidelity
import GoCompact.Proofs.Layout.Placement
import GoCompact.Proofs.Layout.Seams
import GoCompact.Proofs.Layout.Sink
import GoCompact.Proofs.Layout.Separation
import GoCompact.Proofs.Layout.Words
import GoCompact.Proofs.Lexing.Boundary
import GoCompact.Proofs.Lexing.Delimited
import GoCompact.Proofs.Lexing.Insertion
import GoCompact.Proofs.Lexing.Lossless
import GoCompact.Proofs.Lexing.Number
import GoCompact.Proofs.Lexing.Pieces
import GoCompact.Proofs.Lexing.Positions
import GoCompact.Proofs.Lexing.Progress
import GoCompact.Proofs.Lexing.Resumption
import GoCompact.Proofs.Lexing.Spacing
import GoCompact.Proofs.Lexing.Steps
import GoCompact.Proofs.Lexing.Stream
import GoCompact.Proofs.Reread.Attachment
import GoCompact.Proofs.Reread.Basic
import GoCompact.Proofs.Reread.Clausal
import GoCompact.Proofs.Reread.Clause
import GoCompact.Proofs.Reread.Constraint
import GoCompact.Proofs.Reread.Declaration
import GoCompact.Proofs.Reread.Expression
import GoCompact.Proofs.Reread.Fields
import GoCompact.Proofs.Reread.Header
import GoCompact.Proofs.Reread.Literal
import GoCompact.Proofs.Reread.LoneParameter
import GoCompact.Proofs.Reread.Member
import GoCompact.Proofs.Reread.Operation
import GoCompact.Proofs.Reread.Outline
import GoCompact.Proofs.Reread.Parameter
import GoCompact.Proofs.Reread.Position
import GoCompact.Proofs.Reread.Script
import GoCompact.Proofs.Reread.Source
import GoCompact.Proofs.Reread.Statement
import GoCompact.Proofs.Reread.Text
import GoCompact.Proofs.Reread.Type
import GoCompact.Proofs.Reread.TypeHead
import GoCompact.Proofs.Reread.TypeSpec
import GoCompact.Proofs.Reread.TypeTree
import GoCompact.Proofs.Reread.Whole
import GoCompact.Proofs.Session.Contexts
import GoCompact.Session
import GoCompact.Settings
import GoCompact.Text.Basic
import GoCompact.Text.Builder
import GoCompact.Text.Class
import GoCompact.Text.Digits
import GoCompact.Text.Hex
import GoCompact.Text.Letters
import GoCompact.Text.Numerals
import GoCompact.Text.Printable
import GoCompact.Text.Quoted
import GoCompact.Token.Basic
import GoCompact.Token.Gap
import GoCompact.Token.Kind
import GoCompact.Token.Lexer
import GoCompact.Token.Munch
import GoCompact.Token.Scan
import GoCompact.Tree.Basic
import GoCompact.Tree.Document
import GoCompact.Tree.Equality
import GoCompact.Tree.Kind
import GoCompact.Tree.Query
import GoCompact.Tree.Schema
import GoCompact.Tree.Shape
