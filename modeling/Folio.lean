import Folio.Disk.Listing
import Folio.Main
import Folio.Proofs.Statement.Items
import Folio.Proofs.Template.Resolve
import Folio.Proofs.Template.Sections
import Folio.Proofs.Chain.Levels
import Folio.Proofs.Template.Seam
import Folio.Proofs.Chain.Cycle
import Folio.Proofs.Chain.Opaque
import Folio.Proofs.Chain.Shadowing
import Folio.Proofs.Chain.Agreement
import Folio.Proofs.Statement.Grammar
import Folio.Proofs.Disk.Find
import Folio.Proofs.Disk.Frame
import Folio.Proofs.Disk.Removal
import Folio.Proofs.Site.Entries
import Folio.Proofs.Site.Load
import Folio.Proofs.Site.Pruning
import Folio.Proofs.Command.Root
import Folio.Proofs.Site.FixedPoint
import Folio.Proofs.Command.FixedPoint
import Folio.Proofs.Path.Order
import Folio.Proofs.Site.Leftover
import Folio.Proofs.Disk.Route
import Folio.Proofs.Site.DryRun
import Folio.Proofs.Command.Check
import Folio.Proofs.Path.Steps
import Folio.Proofs.Disk.Folders
import Folio.Proofs.Disk.Replace
import Folio.Proofs.Disk.Patch
import Folio.Proofs.Disk.Ahead
import Folio.Proofs.Disk.Tags
import Folio.Proofs.Site.AnyOrder
import Folio.Proofs.Chain.Supply
import Folio.Proofs.Text.Slice
import Folio.Proofs.Template.Shape
import Folio.Proofs.Site.Crew
import Folio.Proofs.Site.Schedule
import Folio.Proofs.Site.Traces
import Folio.Proofs.Site.Readers
import Folio.Proofs.Site.Again
import Folio.Proofs.Site.Effects
import Folio.Proofs.Site.Spared
import Folio.Proofs.Command.Ending
import Folio.Proofs.Command.Effects
import Folio.Proofs.Statement.Places
import Folio.Proofs.Template.Faults
import Folio.Proofs.Template.Replace
import Folio.Proofs.Chain.Strict
import Folio.Proofs.Statement.Quoting
import Folio.Proofs.Path.Normal
import Folio.Proofs.Chain.Spelling
import Folio.Proofs.Chain.Dependence
import Folio.Proofs.Chain.Reports
import Folio.Proofs.Text.Fields
import Folio.Proofs.Manifest.Grammar
import Folio.Proofs.Data.Leaves
import Folio.Proofs.Watch.Filter
import Folio.Proofs.Site.Team
import Folio.Proofs.Text.Reader
import Folio.Proofs.Data.Names
import Folio.Proofs.Data.Keys
import Folio.Proofs.Text.Boundary
import Folio.Proofs.Statement.Tokens
import Folio.Proofs.Statement.Cursor
import Folio.Proofs.Template.Offsets
