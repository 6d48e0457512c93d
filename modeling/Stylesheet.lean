import Stylesheet.Config
import Stylesheet.Files
import Stylesheet.Forest.Basic
import Stylesheet.Forest.Copy
import Stylesheet.Forest.Cursor
import Stylesheet.Forest.Edit
import Stylesheet.Forest.Selectors
import Stylesheet.Forest.Walk
import Stylesheet.Input
import Stylesheet.Json
import Stylesheet.Json.Double
import Stylesheet.Json.Reader
import Stylesheet.Json.Writer
import Stylesheet.ListValue
import Stylesheet.Node
import Stylesheet.Output
import Stylesheet.Parser
import Stylesheet.Parser.Basic
import Stylesheet.Parser.Declaration
import Stylesheet.Parser.Statement
import Stylesheet.Path
import Stylesheet.Position
import Stylesheet.Printer
import Stylesheet.Printer.Detect
import Stylesheet.Proofs.AppendedTree
import Stylesheet.Proofs.BuiltTree
import Stylesheet.Proofs.Cursor.Advance
import Stylesheet.Proofs.Cursor.Arrivals
import Stylesheet.Proofs.Cursor.Carried
import Stylesheet.Proofs.Cursor.Follows
import Stylesheet.Proofs.Cursor.Naive
import Stylesheet.Proofs.Cursor.Open
import Stylesheet.Proofs.Cursor.Sequential
import Stylesheet.Proofs.Cursor.Steady
import Stylesheet.Proofs.Forest.Appended
import Stylesheet.Proofs.Forest.Copied
import Stylesheet.Proofs.Forest.Edits
import Stylesheet.Proofs.Forest.Growth
import Stylesheet.Proofs.Forest.InPlace
import Stylesheet.Proofs.Forest.Insertion
import Stylesheet.Proofs.Forest.Links
import Stylesheet.Proofs.Forest.Outline
import Stylesheet.Proofs.Forest.Plant
import Stylesheet.Proofs.Forest.Read
import Stylesheet.Proofs.Forest.Refused
import Stylesheet.Proofs.Forest.Relocated
import Stylesheet.Proofs.Forest.Replacement
import Stylesheet.Proofs.Forest.Replacing
import Stylesheet.Proofs.Forest.Selectors
import Stylesheet.Proofs.Forest.Spares
import Stylesheet.Proofs.Forest.Stable
import Stylesheet.Proofs.Forest.WellFormed
import Stylesheet.Proofs.Json.RoundTrip
import Stylesheet.Proofs.ListValue.Closed
import Stylesheet.Proofs.ListValue.Items
import Stylesheet.Proofs.Parse.AtRule
import Stylesheet.Proofs.Parse.Bare
import Stylesheet.Proofs.Parse.Closing
import Stylesheet.Proofs.Parse.Comment
import Stylesheet.Proofs.Parse.Declaration
import Stylesheet.Proofs.Parse.Divided
import Stylesheet.Proofs.Parse.Footer
import Stylesheet.Proofs.Parse.Gaps
import Stylesheet.Proofs.Parse.Grown
import Stylesheet.Proofs.Parse.Importance
import Stylesheet.Proofs.Parse.Layout
import Stylesheet.Proofs.Parse.Marked
import Stylesheet.Proofs.Parse.Parts
import Stylesheet.Proofs.Parse.Printed
import Stylesheet.Proofs.Parse.Ranges
import Stylesheet.Proofs.Parse.Reread
import Stylesheet.Proofs.Parse.Spaced
import Stylesheet.Proofs.Parse.Standing
import Stylesheet.Proofs.Parse.State
import Stylesheet.Proofs.Parse.Statements
import Stylesheet.Proofs.Parse.Worded
import Stylesheet.Proofs.Path
import Stylesheet.Proofs.Print.Formatted
import Stylesheet.Proofs.Print.Grown
import Stylesheet.Proofs.Print.Lookups
import Stylesheet.Proofs.Print.Moved
import Stylesheet.Proofs.Print.Order
import Stylesheet.Proofs.Print.Parts
import Stylesheet.Proofs.Print.Pieces
import Stylesheet.Proofs.Print.Plain
import Stylesheet.Proofs.Print.Pretty
import Stylesheet.Proofs.Print.Renamed
import Stylesheet.Proofs.Print.Resolved
import Stylesheet.Proofs.Print.Shares
import Stylesheet.Proofs.Print.Slots
import Stylesheet.Proofs.Print.Spelling
import Stylesheet.Proofs.Print.Survivors
import Stylesheet.Proofs.Print.Texts
import Stylesheet.Proofs.Ranges
import Stylesheet.Proofs.Reading
import Stylesheet.Proofs.RoundTrip
import Stylesheet.Proofs.Run.Calls
import Stylesheet.Proofs.Run.Chain
import Stylesheet.Proofs.Run.Failure
import Stylesheet.Proofs.Run.History
import Stylesheet.Proofs.Run.Order
import Stylesheet.Proofs.Run.Termination
import Stylesheet.Proofs.Run.Visit
import Stylesheet.Proofs.SourceMap.Again
import Stylesheet.Proofs.SourceMap.Codec
import Stylesheet.Proofs.SourceMap.Contents
import Stylesheet.Proofs.SourceMap.Embedded
import Stylesheet.Proofs.SourceMap.Footer
import Stylesheet.Proofs.SourceMap.Identity
import Stylesheet.Proofs.SourceMap.Lookup
import Stylesheet.Proofs.SourceMap.Marks
import Stylesheet.Proofs.SourceMap.Names
import Stylesheet.Proofs.SourceMap.OneLink
import Stylesheet.Proofs.SourceMap.Openings
import Stylesheet.Proofs.SourceMap.Places
import Stylesheet.Proofs.SourceMap.Semicolons
import Stylesheet.Proofs.SourceMap.Tokens
import Stylesheet.Proofs.SourceMap.Traced
import Stylesheet.Proofs.SourceMap.Vlq
import Stylesheet.Proofs.Text.Base64
import Stylesheet.Proofs.Text.Offsets
import Stylesheet.Proofs.Text.Snippet
import Stylesheet.Proofs.Token.Bytes
import Stylesheet.Proofs.Token.Concat
import Stylesheet.Proofs.Token.Fillers
import Stylesheet.Proofs.Token.Footer
import Stylesheet.Proofs.Token.Rules
import Stylesheet.Proofs.Token.Scan
import Stylesheet.Proofs.Token.Splice
import Stylesheet.Proofs.Token.Tiling
import Stylesheet.Raws
import Stylesheet.Run.Plugin
import Stylesheet.Run.Process
import Stylesheet.Run.Traversal
import Stylesheet.Session
import Stylesheet.SourceError
import Stylesheet.SourceMap
import Stylesheet.SourceMap.Builder
import Stylesheet.SourceMap.Mapping
import Stylesheet.SourceMap.Names
import Stylesheet.SourceMap.Previous
import Stylesheet.SourceMap.Reader
import Stylesheet.SourceMap.Settings
import Stylesheet.SourceMap.Vlq
import Stylesheet.SourceMap.Writer
import Stylesheet.Text.Base64
import Stylesheet.Text.Blank
import Stylesheet.Text.Bytes
import Stylesheet.Text.Cut
import Stylesheet.Text.Digest
import Stylesheet.Text.Lowercase
import Stylesheet.Text.Percent
import Stylesheet.Text.WordChar
import Stylesheet.Token
import Stylesheet.Token.Lexer
import Stylesheet.Tree
