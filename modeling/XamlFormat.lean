import XamlFormat.Command.Arguments
import XamlFormat.Command.FileTask
import XamlFormat.Command.Invocation
import XamlFormat.Command.Options
import XamlFormat.Command.Program
import XamlFormat.Command.Run
import XamlFormat.Command.Selection
import XamlFormat.Data.Basic
import XamlFormat.Data.Json
import XamlFormat.Data.Toml
import XamlFormat.DesignTime
import XamlFormat.Extension.Basic
import XamlFormat.Extension.Layout
import XamlFormat.Extension.Reader
import XamlFormat.Layout.Indent
import XamlFormat.Layout.Printer
import XamlFormat.Layout.StartTag
import XamlFormat.Main
import XamlFormat.Markup.Defect
import XamlFormat.Markup.Marker
import XamlFormat.Markup.Name
import XamlFormat.Markup.Node
import XamlFormat.Markup.Reader
import XamlFormat.Markup.Reference
import XamlFormat.Number.Binary64
import XamlFormat.Number.Integer
import XamlFormat.Order.Attributes
import XamlFormat.Order.Children
import XamlFormat.Order.NamePattern
import XamlFormat.Order.Siblings
import XamlFormat.Order.StableSort
import XamlFormat.Project.Contents
import XamlFormat.Project.Discovery
import XamlFormat.Project.FileTree
import XamlFormat.Project.Message
import XamlFormat.Project.Path
import XamlFormat.Project.Wildcard
import XamlFormat.Proofs.Command.Inquiry
import XamlFormat.Proofs.Command.Schedules
import XamlFormat.Proofs.Command.Verdict
import XamlFormat.Proofs.Extension.Lines
import XamlFormat.Proofs.Extension.Literal
import XamlFormat.Proofs.Extension.RoundTrip
import XamlFormat.Proofs.Extension.Tokens
import XamlFormat.Proofs.Layout.Arranged
import XamlFormat.Proofs.Layout.Comments
import XamlFormat.Proofs.Layout.Document
import XamlFormat.Proofs.Layout.Dress
import XamlFormat.Proofs.Layout.Fidelity
import XamlFormat.Proofs.Layout.Idempotent
import XamlFormat.Proofs.Layout.KeptText
import XamlFormat.Proofs.Layout.LaidOutElements
import XamlFormat.Proofs.Layout.Limits
import XamlFormat.Proofs.Layout.LineStyle
import XamlFormat.Proofs.Layout.Packing
import XamlFormat.Proofs.Layout.Parts
import XamlFormat.Proofs.Layout.Printed
import XamlFormat.Proofs.Layout.Range
import XamlFormat.Proofs.Layout.ReadBack
import XamlFormat.Proofs.Layout.Regions
import XamlFormat.Proofs.Layout.Relayout
import XamlFormat.Proofs.Layout.Restyled
import XamlFormat.Proofs.Layout.Skeleton
import XamlFormat.Proofs.Layout.StablePieces
import XamlFormat.Proofs.Layout.StartTag
import XamlFormat.Proofs.Layout.Successor
import XamlFormat.Proofs.Layout.Valid
import XamlFormat.Proofs.Layout.Verbatim
import XamlFormat.Proofs.Lists
import XamlFormat.Proofs.Markup.Complete
import XamlFormat.Proofs.Markup.Coverage
import XamlFormat.Proofs.Markup.Decode
import XamlFormat.Proofs.Markup.Faults
import XamlFormat.Proofs.Markup.Part
import XamlFormat.Proofs.Markup.References
import XamlFormat.Proofs.Markup.Reports
import XamlFormat.Proofs.Markup.Sound
import XamlFormat.Proofs.Markup.WellFormed
import XamlFormat.Proofs.Order.Attributes
import XamlFormat.Proofs.Order.Children
import XamlFormat.Proofs.Order.Classification
import XamlFormat.Proofs.Order.Confined
import XamlFormat.Proofs.Order.Placement
import XamlFormat.Proofs.Order.Siblings
import XamlFormat.Proofs.Order.Sorting
import XamlFormat.Proofs.Project.Overwriting
import XamlFormat.Proofs.Rules.Canonical
import XamlFormat.Proofs.Rules.Copied
import XamlFormat.Proofs.Rules.Dangling
import XamlFormat.Proofs.Rules.Families
import XamlFormat.Proofs.Rules.Reading
import XamlFormat.Proofs.Rules.Resorting
import XamlFormat.Proofs.Rules.Scope
import XamlFormat.Proofs.Rules.Settled
import XamlFormat.Proofs.Rules.Stripped
import XamlFormat.Proofs.Rules.Thickness
import XamlFormat.Proofs.Rules.Tidy
import XamlFormat.Proofs.Text.Blanks
import XamlFormat.Proofs.Text.Cuts
import XamlFormat.Proofs.Text.LineEnds
import XamlFormat.Proofs.Text.Places
import XamlFormat.Remark
import XamlFormat.Settings.Basic
import XamlFormat.Settings.Change
import XamlFormat.Settings.Choice
import XamlFormat.Settings.File
import XamlFormat.Style
import XamlFormat.Text.Basic
import XamlFormat.Text.Blank
import XamlFormat.Text.Letter
import XamlFormat.Text.LineBreak
import XamlFormat.Text.Place
import XamlFormat.Text.Quoted
import XamlFormat.Text.Tails
import XamlFormat.Text.Utf8
import XamlFormat.Text.Visible
import XamlFormat.Thickness
