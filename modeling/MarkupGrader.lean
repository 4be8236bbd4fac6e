import MarkupGrader.Boundary.Buffer
import MarkupGrader.Boundary.ErrorCode
import MarkupGrader.Boundary.Exports
import MarkupGrader.Command
import MarkupGrader.CommandLine.Answer
import MarkupGrader.CommandLine.Help
import MarkupGrader.CommandLine.Request
import MarkupGrader.CommandLine.Switch
import MarkupGrader.Connection
import MarkupGrader.Diagnostic
import MarkupGrader.Diagnostic.Cut
import MarkupGrader.Document.Arena
import MarkupGrader.Document.Basic
import MarkupGrader.Document.Build
import MarkupGrader.Document.Cursor
import MarkupGrader.Document.Cut
import MarkupGrader.Document.Place
import MarkupGrader.ElementClass
import MarkupGrader.Fault
import MarkupGrader.FileFault
import MarkupGrader.Grader
import MarkupGrader.Json
import MarkupGrader.Language.Basic
import MarkupGrader.Language.Cache
import MarkupGrader.Language.Registry
import MarkupGrader.Layout
import MarkupGrader.Layout.Cut
import MarkupGrader.LineDiff.Basic
import MarkupGrader.LineDiff.Frontier
import MarkupGrader.LineDiff.Script
import MarkupGrader.LineDiff.Slide
import MarkupGrader.Main
import MarkupGrader.Markup.Item
import MarkupGrader.Markup.Lexer
import MarkupGrader.Markup.Node
import MarkupGrader.Markup.Outline
import MarkupGrader.Markup.Reading
import MarkupGrader.Markup.TagName
import MarkupGrader.Markup.Token
import MarkupGrader.Matching
import MarkupGrader.Outcome
import MarkupGrader.Selector.Basic
import MarkupGrader.Selector.Memo
import MarkupGrader.Selector.Reading
import MarkupGrader.Selector.Split
import MarkupGrader.Settings.Basic
import MarkupGrader.Settings.Fields
import MarkupGrader.Settings.Reading
import MarkupGrader.Submission.Check
import MarkupGrader.Submission.Report
import MarkupGrader.Submission.ReportJson
import MarkupGrader.Text.Basic
import MarkupGrader.Text.Blank
import MarkupGrader.Text.Bytes
import MarkupGrader.Text.Cut
import MarkupGrader.Text.Hidden
import MarkupGrader.Text.Lines
import MarkupGrader.Text.Quoted
import MarkupGrader.Text.Units
import MarkupGrader.Toml.Scalar
import MarkupGrader.Toml.Statement
import MarkupGrader.Toml.Table
import MarkupGrader.Toml.Token
import MarkupGrader.Validator
import MarkupGrader.Proofs.Boundary.Buffer
import MarkupGrader.Proofs.Boundary.ErrorCode
import MarkupGrader.Proofs.Boundary.Call
import MarkupGrader.Proofs.Outcome.Codec
import MarkupGrader.Proofs.Diagnostic.Message
import MarkupGrader.Proofs.Grader.Answer
import MarkupGrader.Proofs.Grader.Hosted
import MarkupGrader.Proofs.Submission.Passed
import MarkupGrader.Proofs.Connection.LifeCycle
import MarkupGrader.Proofs.Markup.Nest
import MarkupGrader.Proofs.Markup.Plain
import MarkupGrader.Proofs.Document.Items
import MarkupGrader.Proofs.Layout.Rows
import MarkupGrader.Proofs.Layout.Items
import MarkupGrader.Proofs.Text.Occurs
import MarkupGrader.Proofs.Markup.Content
import MarkupGrader.Proofs.Layout.Printed
import MarkupGrader.Proofs.Layout.Kept
import MarkupGrader.Proofs.Boundary.Crossing
import MarkupGrader.Proofs.Grader.Content
import MarkupGrader.Proofs.Text.Squeeze
import MarkupGrader.Proofs.Text.Lines
import MarkupGrader.Proofs.Text.Collapse
import MarkupGrader.Proofs.Markup.Gap
import MarkupGrader.Proofs.Markup.TagReads
import MarkupGrader.Proofs.Markup.TokenReads
import MarkupGrader.Proofs.Markup.RawReads
import MarkupGrader.Proofs.Markup.Sound
import MarkupGrader.Proofs.Markup.AllRead
import MarkupGrader.Proofs.Markup.Squeezed
import MarkupGrader.Proofs.Markup.Settle
import MarkupGrader.Proofs.Markup.Printable
import MarkupGrader.Proofs.Diagnostic.Faultless
import MarkupGrader.Proofs.Markup.Regular
import MarkupGrader.Proofs.Markup.Copy
import MarkupGrader.Proofs.Markup.CopyNests
import MarkupGrader.Proofs.Markup.PrintedTag
import MarkupGrader.Proofs.Markup.Skeleton
import MarkupGrader.Proofs.Markup.Pruned
import MarkupGrader.Proofs.Layout.Reprint
import MarkupGrader.Proofs.Layout.Reread
import MarkupGrader.Proofs.Layout.Page
import MarkupGrader.Proofs.Layout.Skeleton
import MarkupGrader.Proofs.Diagnostic.Again
import MarkupGrader.Proofs.Selector.Values
import MarkupGrader.Proofs.Document.View
import MarkupGrader.Proofs.Document.Again
import MarkupGrader.Proofs.Grader.Reformat
import MarkupGrader.Proofs.Settings.Registered
import MarkupGrader.Proofs.Submission.Verdict
import MarkupGrader.Proofs.Submission.Accepted
import MarkupGrader.Proofs.Selector.Cuts
import MarkupGrader.Proofs.Selector.Written
import MarkupGrader.Proofs.Diagnostic.Account
import MarkupGrader.Proofs.Diagnostic.Offence
import MarkupGrader.Proofs.Diagnostic.Exact
import MarkupGrader.Proofs.SideBySide
import MarkupGrader.Proofs.Matching.Trail
import MarkupGrader.Proofs.Matching.Growth
import MarkupGrader.Proofs.Layout.Terminator
import MarkupGrader.Proofs.Grader.SyntaxGate
import MarkupGrader.Proofs.Selector.Locality
import MarkupGrader.Proofs.Document.Subject
import MarkupGrader.Proofs.Document.Numbering
import MarkupGrader.Proofs.Document.Placed
import MarkupGrader.Proofs.Document.Arena
import MarkupGrader.Proofs.Document.Walk
import MarkupGrader.Proofs.Document.Ownership
import MarkupGrader.Proofs.Document.Spans
import MarkupGrader.Proofs.Text.Cut
import MarkupGrader.Proofs.Document.Cut
import MarkupGrader.Proofs.Diagnostic.Cut
import MarkupGrader.Proofs.Layout.Cut
import MarkupGrader.Proofs.Grader.Cut
import MarkupGrader.Proofs.Diagnostic.Certified
import MarkupGrader.Proofs.Text.Surrogates
import MarkupGrader.Proofs.Boundary.Writing
import MarkupGrader.Proofs.Markup.Spelling
import MarkupGrader.Proofs.Layout.Spelling
import MarkupGrader.Proofs.Grader.Spelling
import MarkupGrader.Proofs.Boundary.Received
import MarkupGrader.Proofs.Language.Cache
import MarkupGrader.Proofs.Language.Loads
import MarkupGrader.Proofs.Submission.Sharing
import MarkupGrader.Proofs.Language.History
import MarkupGrader.Proofs.Connection.Renewal
import MarkupGrader.Proofs.Selector.Memo
import MarkupGrader.Proofs.Settings.Configured
import MarkupGrader.Proofs.Selector.Pieces
import MarkupGrader.Proofs.Selector.Formed
import MarkupGrader.Proofs.Selector.Policies
import MarkupGrader.Proofs.Text.Weight
import MarkupGrader.Proofs.Selector.Legible
import MarkupGrader.Proofs.Text.Trim
import MarkupGrader.Proofs.Settings.Headings
import MarkupGrader.Proofs.Text.SolidLines
import MarkupGrader.Proofs.Layout.Blocks
import MarkupGrader.Proofs.Layout.Sheltered
import MarkupGrader.Proofs.Layout.Copied
import MarkupGrader.Proofs.Layout.Again
import MarkupGrader.Proofs.Layout.Relaid
import MarkupGrader.Proofs.Layout.LineEnding
import MarkupGrader.Proofs.Grader.Canonical
