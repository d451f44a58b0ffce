import JsonInspect.Aggregate
import JsonInspect.Command.Arguments
import JsonInspect.Command.Run
import JsonInspect.EditDistance
import JsonInspect.Failure
import JsonInspect.Files.Disk
import JsonInspect.Files.Fault
import JsonInspect.Files.Load
import JsonInspect.Files.Name
import JsonInspect.Files.Save
import JsonInspect.Files.SettingsFile
import JsonInspect.Files.Volume
import JsonInspect.Group
import JsonInspect.Gzip.Bits
import JsonInspect.Gzip.Checksum
import JsonInspect.Gzip.Code
import JsonInspect.Gzip.Inflate
import JsonInspect.Gzip.Member
import JsonInspect.Json.Basic
import JsonInspect.Json.Entries
import JsonInspect.Json.Fault
import JsonInspect.Json.Quoted
import JsonInspect.Json.Reader
import JsonInspect.Json.Writer
import JsonInspect.Main
import JsonInspect.Markup
import JsonInspect.Number.Basic
import JsonInspect.Number.Double
import JsonInspect.Number.Operand
import JsonInspect.Number.Rounding
import JsonInspect.Number.Shortest
import JsonInspect.Palette
import JsonInspect.Path
import JsonInspect.Predicate
import JsonInspect.Proofs.Number.Value
import JsonInspect.Query
import JsonInspect.Rename
import JsonInspect.Render
import JsonInspect.Session
import JsonInspect.Settings
import JsonInspect.Text.Blank
import JsonInspect.Text.CaseTable
import JsonInspect.Text.Lowercase
import JsonInspect.Text.Position
import JsonInspect.Text.Search
import JsonInspect.Text.Utf8
import JsonInspect.Toml.Document
import JsonInspect.Toml.Quoted
import JsonInspect.Toml.Scalar
import JsonInspect.Toml.Value
import JsonInspect.Proofs.Number.Rounding
import JsonInspect.Proofs.Number.Shortest
import JsonInspect.Proofs.Number.Digits
import JsonInspect.Proofs.Number.Reading
import JsonInspect.Proofs.Number.Reread
import JsonInspect.Proofs.Json.Entries
import JsonInspect.Proofs.Json.Tree
import JsonInspect.Proofs.Json.Written
import JsonInspect.Proofs.Json.Reread
import JsonInspect.Proofs.Json.Strings
import JsonInspect.Proofs.Json.Reading
import JsonInspect.Proofs.Json.RoundTrip
import JsonInspect.Proofs.Json.Accepted
import JsonInspect.Proofs.Engine.Reread
import JsonInspect.Proofs.Engine.WellFormed
import JsonInspect.Proofs.Session.Edits
import JsonInspect.Proofs.Session.Pipeline
import JsonInspect.Proofs.Session.Nesting
import JsonInspect.Proofs.Engine.Leaves
import JsonInspect.Proofs.Engine.Depth
import JsonInspect.Proofs.Page.Balanced
import JsonInspect.Proofs.Page.Elements
import JsonInspect.Proofs.Page.Highlights
import JsonInspect.Proofs.Page.Results
import JsonInspect.Proofs.Session.SearchPage
import JsonInspect.Proofs.Engine.Renamed
import JsonInspect.Proofs.Session.Runs
import JsonInspect.Proofs.Text.Trim
import JsonInspect.Proofs.Text.Dotted
import JsonInspect.Proofs.Text.EditDistance
import JsonInspect.Proofs.Number.Locality
import JsonInspect.Proofs.Json.Locality
import JsonInspect.Proofs.Files.Saving
import JsonInspect.Proofs.Engine.Palette
import JsonInspect.Proofs.Session.PaletteSearch
import JsonInspect.Proofs.Engine.RenameResult
import JsonInspect.Proofs.Engine.Assigned
import JsonInspect.Proofs.Json.Gathered
import JsonInspect.Proofs.Engine.Grouping
import JsonInspect.Proofs.Json.Positions
import JsonInspect.Proofs.Engine.Duplicates
import JsonInspect.Proofs.Engine.Occurrences
import JsonInspect.Proofs.Engine.Removal
import JsonInspect.Proofs.Engine.Block
import JsonInspect.Proofs.Text.Location
import JsonInspect.Proofs.Engine.Locations
import JsonInspect.Proofs.Engine.Rearranged
import JsonInspect.Proofs.Engine.Comparisons
import JsonInspect.Proofs.Number.Integers
import JsonInspect.Proofs.Engine.IntegerFields
import JsonInspect.Proofs.Engine.ValueSearch
import JsonInspect.Proofs.Text.Predicates
import JsonInspect.Proofs.Text.Search
import JsonInspect.Proofs.Text.Lowercase
import JsonInspect.Proofs.Text.PredicateTexts
import JsonInspect.Proofs.Page.Content
import JsonInspect.Proofs.Json.Layouts
import JsonInspect.Proofs.Json.Equality
import JsonInspect.Proofs.Toml.Lines
import JsonInspect.Proofs.Files.Mishaps
import JsonInspect.Proofs.Files.Paths
import JsonInspect.Proofs.Files.Reloading
import JsonInspect.Proofs.Files.SettingsFile
import JsonInspect.Proofs.Files.Spared
