import Daybook.Text.Blank
import Daybook.Text.Bytes
import Daybook.Text.Lines
import Daybook.Text.Decimal
import Daybook.Text.Pieces
import Daybook.Text.Similarity
import Daybook.Calendar.Date
import Daybook.Calendar.Weekday
import Daybook.Calendar.Instant
import Daybook.Calendar.Moment
import Daybook.Calendar.Written
import Daybook.Calendar.Literal
import Daybook.Event.Basic
import Daybook.Event.Patch
import Daybook.Recurrence
import Daybook.Bisection
import Daybook.Store
import Daybook.Csv.Fields
import Daybook.Csv.Dialect
import Daybook.Csv.Table
import Daybook.Command.Token
import Daybook.Command.Lexeme
import Daybook.Command.TokenRules
import Daybook.Command.Verb
import Daybook.Command.Reading
import Daybook.Command.Outline
import Daybook.Command.Basic
import Daybook.Command.Values
import Daybook.Command.Line
import Daybook.Command.Written
import Daybook.Fault
import Daybook.Files.Tree
import Daybook.Files.Paths
import Daybook.Files.Contents
import Daybook.Sink
import Daybook.Session.Reply
import Daybook.Session.Basic
import Daybook.Session.Console
import Daybook.Toml.Scalar
import Daybook.Toml.Token
import Daybook.Toml.Quoted
import Daybook.Toml.Syntax
import Daybook.Toml.Value
import Daybook.Toml.Document
import Daybook.Program.Arguments
import Daybook.Program.Settings
import Daybook.Program.Job
import Daybook.Program.Sitting
import Daybook.Program.Run
import Daybook.Main
import Daybook.Proofs.Store.Order
import Daybook.Proofs.Store.Runs
import Daybook.Proofs.Store.Queries
import Daybook.Proofs.Store.Names
import Daybook.Proofs.Store.Warnings
import Daybook.Proofs.Calendar.ReadBack
import Daybook.Proofs.Text.TextLines
import Daybook.Proofs.Csv.Splitting
import Daybook.Proofs.Csv.Rows
import Daybook.Proofs.Csv.RoundTrip
import Daybook.Proofs.Csv.Decoding
import Daybook.Proofs.Command.Grammar
import Daybook.Proofs.Command.Parts
import Daybook.Proofs.Command.Drafts
import Daybook.Proofs.Command.Literals
import Daybook.Proofs.Command.Layout
import Daybook.Proofs.Command.Canonical
import Daybook.Proofs.Command.Notes
import Daybook.Proofs.Command.Guides
import Daybook.Proofs.Command.Misfits
import Daybook.Proofs.Command.Flags
import Daybook.Proofs.Command.Erasure
import Daybook.Proofs.Command.Appended
import Daybook.Proofs.Command.Clauses
import Daybook.Proofs.Command.Restyling
import Daybook.Proofs.Command.Texts
import Daybook.Proofs.Command.Naming
import Daybook.Proofs.Recurrence.Occurrences
import Daybook.Proofs.Recurrence.Until
import Daybook.Proofs.Recurrence.Series
import Daybook.Proofs.Recurrence.Expansion
import Daybook.Proofs.Recurrence.Weeks
import Daybook.Proofs.Recurrence.FirstDay
import Daybook.Proofs.Session.Steps
import Daybook.Proofs.Session.Replies
import Daybook.Proofs.Session.Operations
import Daybook.Proofs.Session.Recurring
import Daybook.Proofs.Session.Until
import Daybook.Proofs.Session.Addressing
import Daybook.Proofs.Session.Failures
import Daybook.Proofs.Command.Phrases
import Daybook.Proofs.Session.Lines
import Daybook.Proofs.Session.FrontEnds
import Daybook.Proofs.Session.Record
import Daybook.Proofs.Session.Limits
import Daybook.Proofs.Session.Declining
import Daybook.Proofs.Session.Characters
import Daybook.Proofs.Session.Exports
import Daybook.Proofs.Session.Names
import Daybook.Proofs.Session.Accounts
import Daybook.Proofs.Store.Edits
import Daybook.Proofs.Store.Independence
import Daybook.Proofs.Session.Days
import Daybook.Proofs.Command.Leftmost
import Daybook.Proofs.Csv.NormalForm
import Daybook.Proofs.Command.Verbatim
import Daybook.Proofs.Command.Scanning
import Daybook.Proofs.Command.Cutting
import Daybook.Proofs.Csv.Quoting
