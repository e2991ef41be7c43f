import Shorthand.CommandLine
import Shorthand.Editor.Call
import Shorthand.Editor.Completion
import Shorthand.Editor.Document
import Shorthand.Editor.Server
import Shorthand.Editor.Session
import Shorthand.Editor.Settings
import Shorthand.Editor.SettingsCache
import Shorthand.Editor.Store
import Shorthand.Editor.Wire
import Shorthand.Error
import Shorthand.Expand
import Shorthand.Extraction.Basic
import Shorthand.Extraction.TagEnd
import Shorthand.Json.Basic
import Shorthand.Json.Lexeme
import Shorthand.Json.Reader
import Shorthand.Main
import Shorthand.Markup.ElementReader
import Shorthand.Markup.Html
import Shorthand.Markup.Lorem
import Shorthand.Markup.Node
import Shorthand.Markup.Place
import Shorthand.Markup.Reader
import Shorthand.Markup.Scan
import Shorthand.Markup.Snippet
import Shorthand.Markup.SnippetTable
import Shorthand.Markup.Vocabulary
import Shorthand.Options
import Shorthand.Proofs.Editor.Accounting
import Shorthand.Proofs.Editor.Capacity
import Shorthand.Proofs.Editor.ExpandedSnippet
import Shorthand.Proofs.Editor.Recency
import Shorthand.Proofs.Editor.Replacement
import Shorthand.Proofs.Editor.SettingsScope
import Shorthand.Proofs.Editor.SingleFlight
import Shorthand.Proofs.Editor.SnippetText
import Shorthand.Proofs.Editor.Synchronization
import Shorthand.Proofs.ErrorColumns
import Shorthand.Proofs.Extraction.Balance
import Shorthand.Proofs.Extraction.Recovery
import Shorthand.Proofs.Extraction.TagGrammar
import Shorthand.Proofs.Markup.AttributeNames
import Shorthand.Proofs.Markup.Bounds
import Shorthand.Proofs.Markup.Copies
import Shorthand.Proofs.Markup.EnclosedElement
import Shorthand.Proofs.Markup.Formats
import Shorthand.Proofs.Markup.Indentation
import Shorthand.Proofs.Markup.LastElement
import Shorthand.Proofs.Markup.Naming
import Shorthand.Proofs.Markup.NormalForm
import Shorthand.Proofs.Markup.Operators
import Shorthand.Proofs.Markup.Parentheses
import Shorthand.Proofs.Markup.PlaceholderText
import Shorthand.Proofs.Markup.Preorder
import Shorthand.Proofs.Markup.PrintedElement
import Shorthand.Proofs.Markup.Printing
import Shorthand.Proofs.Markup.Resolution
import Shorthand.Proofs.Markup.RoundTrip
import Shorthand.Proofs.Markup.SnippetAttributes
import Shorthand.Proofs.Markup.SnippetChildren
import Shorthand.Proofs.Markup.SnippetMarker
import Shorthand.Proofs.Markup.SnippetNesting
import Shorthand.Proofs.Markup.TabStops
import Shorthand.Proofs.Markup.Tags
import Shorthand.Proofs.Markup.Weight
import Shorthand.Proofs.Markup.Writing
import Shorthand.Proofs.Rejection
import Shorthand.Proofs.Stylesheet.Concatenation
import Shorthand.Proofs.Stylesheet.PlainText
import Shorthand.Proofs.Stylesheet.RoundTrip
import Shorthand.Proofs.Stylesheet.TabStops
import Shorthand.Proofs.Text.CodeUnits
import Shorthand.Proofs.Text.LineStarts
import Shorthand.Proofs.Value.Image
import Shorthand.Proofs.Value.Printing
import Shorthand.Stylesheet.Css
import Shorthand.Stylesheet.Definition
import Shorthand.Stylesheet.Keyword
import Shorthand.Stylesheet.Property
import Shorthand.Stylesheet.Reader
import Shorthand.Text.Character
import Shorthand.Text.Line
import Shorthand.Text.Span
import Shorthand.Value.Basic
import Shorthand.Value.Reader
