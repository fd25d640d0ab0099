import PageMend.Batch.Failure
import PageMend.Batch.Ledger
import PageMend.Batch.Run
import PageMend.Batch.Summary
import PageMend.Batch.Timestamp
import PageMend.CommandLine.Arguments
import PageMend.CommandLine.Run
import PageMend.Config.Basic
import PageMend.Config.Load
import PageMend.Config.Written
import PageMend.Main
import PageMend.Markup.Attribute
import PageMend.Markup.Fault
import PageMend.Markup.Parse
import PageMend.Markup.Reading
import PageMend.Markup.Scan
import PageMend.Markup.Token
import PageMend.Markup.Tree.Basic
import PageMend.Markup.Tree.Edit
import PageMend.Markup.Tree.Walk
import PageMend.Number.Binary64
import PageMend.Number.Decimal
import PageMend.Page.Basic
import PageMend.Page.Load
import PageMend.Page.Rewrite
import PageMend.Report.Basic
import PageMend.Report.Json
import PageMend.Rule
import PageMend.Storage.FileSystem
import PageMend.Storage.Path
import PageMend.Text.Blank
import PageMend.Text.Hidden
import PageMend.Text.Quoted
import PageMend.Text.Search
import PageMend.Text.Utf8
import PageMend.Yaml.Decode
import PageMend.Yaml.Document
import PageMend.Yaml.Fault
import PageMend.Yaml.Frame
import PageMend.Yaml.Gap
import PageMend.Yaml.Layout
import PageMend.Yaml.Lexing
import PageMend.Yaml.Meaning
import PageMend.Yaml.Node
import PageMend.Yaml.Scalar
import PageMend.Yaml.Tag
import PageMend.Yaml.Token
import PageMend.Yaml.Written
import PageMend.Proofs.Markup.ReadBack
import PageMend.Proofs.Markup.Legible
import PageMend.Proofs.Markup.Forest
import PageMend.Proofs.Markup.Growth
import PageMend.Proofs.Markup.RoundTrip
import PageMend.Proofs.Markup.Nesting
import PageMend.Proofs.Markup.RawText
import PageMend.Proofs.Markup.Events
import PageMend.Proofs.Markup.Position
import PageMend.Proofs.Markup.Verbatim
import PageMend.Proofs.Markup.Links
import PageMend.Proofs.Markup.Order
import PageMend.Proofs.Markup.Sound
import PageMend.Proofs.Markup.Edits
import PageMend.Proofs.Markup.Proper
import PageMend.Proofs.Markup.Normal
import PageMend.Proofs.Markup.Reload
import PageMend.Proofs.Markup.Around
import PageMend.Proofs.Markup.Apart
import PageMend.Proofs.Markup.Lookup
import PageMend.Proofs.Markup.Traversal
import PageMend.Proofs.Markup.Splice
import PageMend.Proofs.Markup.Replace
import PageMend.Proofs.Markup.Shape
import PageMend.Proofs.Text.Bytes
import PageMend.Proofs.Text.Pieces
import PageMend.Proofs.Text.Reference
import PageMend.Proofs.Page.Elements
import PageMend.Proofs.Rule.Fire
import PageMend.Proofs.Rule.Mendable
import PageMend.Proofs.Rule.Row
import PageMend.Proofs.Rule.Reapply
import PageMend.Proofs.Rule.Frame
import PageMend.Proofs.Rule.Title
import PageMend.Proofs.Rule.Modified
import PageMend.Proofs.Rule.Converge
import PageMend.Proofs.Rule.Commute
import PageMend.Proofs.Rule.SecondRun
import PageMend.Proofs.Rule.Pipeline
import PageMend.Proofs.Storage.Path
import PageMend.Proofs.Storage.Walk
import PageMend.Proofs.Storage.Operations
import PageMend.Proofs.Storage.Trail
import PageMend.Proofs.Storage.Child
import PageMend.Proofs.Storage.Move
import PageMend.Proofs.Storage.Write
import PageMend.Proofs.Page.Save
import PageMend.Proofs.Page.Replace
import PageMend.Proofs.Page.Retitle
import PageMend.Proofs.Batch.Ledger
import PageMend.Proofs.Batch.Isolation
import PageMend.Proofs.Batch.Candidates
import PageMend.Proofs.Batch.Accounting
import PageMend.Proofs.Batch.DryRun
import PageMend.Proofs.CommandLine.Frame
import PageMend.Proofs.Batch.Timestamp
import PageMend.Proofs.Batch.Dots
import PageMend.Proofs.Batch.Recording
import PageMend.Proofs.Report.Grammar
import PageMend.Proofs.Report.Reading
import PageMend.Proofs.Report.RoundTrip
import PageMend.Proofs.Yaml.Place
import PageMend.Proofs.Yaml.Plain
import PageMend.Proofs.Yaml.Quoted
import PageMend.Proofs.Yaml.Block
import PageMend.Proofs.Yaml.Pieces
import PageMend.Proofs.Yaml.Values
import PageMend.Proofs.Yaml.Lines
import PageMend.Proofs.Yaml.Entries
import PageMend.Proofs.Yaml.Assembly
import PageMend.Proofs.Yaml.Record
import PageMend.Proofs.Config.RoundTrip
