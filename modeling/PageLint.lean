import PageLint.Css.Builder
import PageLint.Css.Fault
import PageLint.Css.Numeral
import PageLint.Css.Scan
import PageLint.Css.Sheet
import PageLint.Css.Token
import PageLint.Data.Value
import PageLint.Html.Markup
import PageLint.Html.Node
import PageLint.Html.Token
import PageLint.Html.Tree
import PageLint.Json.Reader
import PageLint.Json.Value
import PageLint.Lint.Catalog
import PageLint.Lint.Checker
import PageLint.Lint.Config
import PageLint.Lint.ConfigText
import PageLint.Lint.Diagnostic
import PageLint.Lint.Directive
import PageLint.Lint.Document
import PageLint.Lint.Path
import PageLint.Lint.Reader
import PageLint.Lint.Report
import PageLint.Lint.Rule
import PageLint.Lint.Rules.Case
import PageLint.Lint.Rules.Declaration
import PageLint.Lint.Rules.Entity
import PageLint.Lint.Rules.Layout
import PageLint.Lint.Rules.Number
import PageLint.Lint.Rules.Page
import PageLint.Lint.Rules.Quotes
import PageLint.Lint.Rules.Selector
import PageLint.Lint.Rules.Todo
import PageLint.Lint.Rules.Tokens
import PageLint.Lint.Rules.Url
import PageLint.Lint.Rules.Whitespace
import PageLint.Lint.Severity
import PageLint.Lint.StyleGuide
import PageLint.Lint.Subject
import PageLint.Lint.Suppression
import PageLint.Lint.Timing
import PageLint.Number.Rounding
import PageLint.Output.Compact
import PageLint.Output.Json
import PageLint.Output.Text
import PageLint.Text.Ascii
import PageLint.Text.Blank
import PageLint.Text.CodePoints
import PageLint.Text.Cursor
import PageLint.Text.Extent
import PageLint.Text.Letter
import PageLint.Text.Lowercase
import PageLint.Text.Position
import PageLint.Text.Source
import PageLint.Text.Token
import PageLint.Text.Word
import PageLint.Yaml.Reader
import PageLint.Yaml.Scalar
import PageLint.Proofs.Text.Passage
import PageLint.Proofs.Text.Tiling
import PageLint.Proofs.Text.Extent
import PageLint.Proofs.Text.Run
import PageLint.Proofs.Css.Lexer
import PageLint.Proofs.Html.Lexer
import PageLint.Proofs.Text.Lines
import PageLint.Proofs.Css.Building
import PageLint.Proofs.Html.Building
import PageLint.Proofs.Html.Stylesheets
import PageLint.Proofs.Html.Faults
import PageLint.Proofs.Css.Shift
import PageLint.Proofs.Rules.Shift
import PageLint.Proofs.Lint.Coherence
import PageLint.Proofs.Lint.Parts
import PageLint.Proofs.Lint.Embedding
import PageLint.Proofs.Lint.Reserved
import PageLint.Proofs.Html.Outline
import PageLint.Proofs.Html.Nesting
import PageLint.Proofs.Html.Depth
import PageLint.Proofs.Html.RoundTrip
import PageLint.Proofs.Html.Ends
import PageLint.Proofs.Text.Order
import PageLint.Proofs.Css.Nesting
import PageLint.Proofs.Css.RoundTrip
import PageLint.Proofs.Css.Depth
import PageLint.Proofs.Css.Walk
import PageLint.Proofs.Html.Supply
import PageLint.Proofs.Html.Walk
import PageLint.Proofs.Css.Balance
import PageLint.Proofs.Lint.Comments
import PageLint.Proofs.Lint.Batch
import PageLint.Proofs.Lint.Directives
import PageLint.Proofs.Output.Compact
import PageLint.Proofs.Css.Spelling
import PageLint.Proofs.Css.Recovery
import PageLint.Proofs.Css.Seam
import PageLint.Proofs.Css.Bare
import PageLint.Proofs.Css.Semicolons
import PageLint.Proofs.Lint.Unended
import PageLint.Proofs.Css.Segments
import PageLint.Proofs.Css.Selectors
import PageLint.Proofs.Css.Importance
import PageLint.Proofs.Html.Attributes
import PageLint.Proofs.Html.StartTags
import PageLint.Proofs.Html.Tables
import PageLint.Proofs.Text.Edit
import PageLint.Proofs.Html.Lookahead
import PageLint.Proofs.Html.Carry
import PageLint.Proofs.Html.Revision
import PageLint.Proofs.Lint.Requoted
import PageLint.Proofs.Lint.Dereferenced
import PageLint.Proofs.Html.Growth
import PageLint.Proofs.Html.Likeness
import PageLint.Proofs.Html.Endings
import PageLint.Proofs.Css.Lookahead
import PageLint.Proofs.Css.Kinds
import PageLint.Proofs.Css.Splice
import PageLint.Proofs.Css.Quoted
import PageLint.Proofs.Lint.Strings
import PageLint.Proofs.Css.Addresses
import PageLint.Proofs.Lint.Addresses
import PageLint.Proofs.Css.Spacing
import PageLint.Proofs.Lint.Spacing
import PageLint.Proofs.Css.Numerals
import PageLint.Proofs.Css.Numbers
import PageLint.Proofs.Css.Zeros
import PageLint.Proofs.Css.Dimensions
import PageLint.Proofs.Lint.Numbers
import PageLint.Proofs.Css.Hyphens
import PageLint.Proofs.Lint.Names
import PageLint.Proofs.Css.Commas
import PageLint.Proofs.Lint.Groups
import PageLint.Proofs.Lint.Alphabet
import PageLint.Proofs.Css.Stretches
import PageLint.Proofs.Lint.BlankLines
import PageLint.Proofs.Css.Indents
import PageLint.Proofs.Lint.Indents
import PageLint.Proofs.Html.Omission
import PageLint.Proofs.Html.Implied
import PageLint.Proofs.Html.Following
import PageLint.Proofs.Html.Abridged
import PageLint.Proofs.Lint.Paragraphs
import PageLint.Proofs.Css.Unclosed
import PageLint.Proofs.Text.LineIndex
import PageLint.Proofs.Html.Unclosed
import PageLint.Proofs.Html.Dropped
import PageLint.Proofs.Lint.Templates
import PageLint.Proofs.Lint.Types
