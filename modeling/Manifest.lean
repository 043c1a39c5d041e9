import Manifest.Logging.Setup
import Manifest.Maintenance
import Manifest.Node.Display
import Manifest.Node.Same
import Manifest.Proofs.Action
import Manifest.Proofs.Document.Assembled
import Manifest.Proofs.Document.Changed
import Manifest.Proofs.Document.Collapsed
import Manifest.Proofs.Document.Declared
import Manifest.Proofs.Document.Decoded
import Manifest.Proofs.Document.Editing
import Manifest.Proofs.Document.Entries
import Manifest.Proofs.Document.FixedPoint
import Manifest.Proofs.Document.Joined
import Manifest.Proofs.Document.Known
import Manifest.Proofs.Document.Names
import Manifest.Proofs.Document.Property
import Manifest.Proofs.Document.Reload
import Manifest.Proofs.Document.Rendered
import Manifest.Proofs.Document.RoundTrip
import Manifest.Proofs.Document.Shape
import Manifest.Proofs.Document.Stored
import Manifest.Proofs.Document.Tidying
import Manifest.Proofs.Document.Verbatim
import Manifest.Proofs.Entry
import Manifest.Proofs.Leaf
import Manifest.Proofs.Maintenance.Commit
import Manifest.Proofs.Maintenance.Grown
import Manifest.Proofs.Maintenance.Growth
import Manifest.Proofs.Maintenance.Keeping
import Manifest.Proofs.Maintenance.Recarrying
import Manifest.Proofs.Maintenance.Refreshing
import Manifest.Proofs.Maintenance.Regeneration
import Manifest.Proofs.Maintenance.Registering
import Manifest.Proofs.Maintenance.Remaking
import Manifest.Proofs.Maintenance.Renewing
import Manifest.Proofs.Maintenance.Repeating
import Manifest.Proofs.Maintenance.Rereading
import Manifest.Proofs.Maintenance.Resettling
import Manifest.Proofs.Maintenance.Restarting
import Manifest.Proofs.Maintenance.Sections
import Manifest.Proofs.Maintenance.Settling
import Manifest.Proofs.Maintenance.Upgrading
import Manifest.Proofs.Marks
import Manifest.Proofs.Merge.Addition
import Manifest.Proofs.Merge.Again
import Manifest.Proofs.Merge.Agreement
import Manifest.Proofs.Merge.Carrying
import Manifest.Proofs.Merge.Commuting
import Manifest.Proofs.Merge.Counting
import Manifest.Proofs.Merge.Origin
import Manifest.Proofs.Merge.Placement
import Manifest.Proofs.Merge.Removal
import Manifest.Proofs.Merge.Rerun
import Manifest.Proofs.Merge.Run
import Manifest.Proofs.Merge.Sharing
import Manifest.Proofs.Merge.Source
import Manifest.Proofs.Merge.Spread
import Manifest.Proofs.Node.Canonical
import Manifest.Proofs.Release
import Manifest.Proofs.Release.Choice
import Manifest.Proofs.Release.Faults
import Manifest.Proofs.Release.Metadata
import Manifest.Proofs.Section.Apart
import Manifest.Proofs.Section.Position
import Manifest.Proofs.Settings
import Manifest.Proofs.Text.Encoding
import Manifest.Proofs.Xml.Around
import Manifest.Proofs.Xml.Contents
import Manifest.Proofs.Xml.Declaration
import Manifest.Proofs.Xml.Exchange
import Manifest.Proofs.Xml.Front
import Manifest.Proofs.Xml.Home
import Manifest.Proofs.Xml.Layout
import Manifest.Proofs.Xml.LineEnd
import Manifest.Proofs.Xml.Loaded
import Manifest.Proofs.Xml.Local
import Manifest.Proofs.Xml.Naming
import Manifest.Proofs.Xml.Native
import Manifest.Proofs.Xml.Opening
import Manifest.Proofs.Xml.Ordinary
import Manifest.Proofs.Xml.Prolog
import Manifest.Proofs.Xml.Qualify
import Manifest.Proofs.Xml.Reading
import Manifest.Proofs.Xml.Reread
import Manifest.Proofs.Xml.Scan
import Manifest.Proofs.Xml.Settled
import Manifest.Proofs.Xml.Steady
import Manifest.Proofs.Xml.Token
import Manifest.Proofs.Xml.Within
import Manifest.Proofs.Xml.Written
import Manifest.Proofs.Release.Version
import Manifest.Proofs.Logging.Following
