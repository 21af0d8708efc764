import ContentPreview.Archive.Bzip2
import ContentPreview.Archive.Coding
import ContentPreview.Archive.Extraction
import ContentPreview.Archive.Gzip
import ContentPreview.Archive.Inflow
import ContentPreview.Archive.Member
import ContentPreview.Archive.Tar
import ContentPreview.Archive.Zip
import ContentPreview.Bitstream
import ContentPreview.CommandLine.Arguments
import ContentPreview.CommandLine.Display
import ContentPreview.CommandLine.Run
import ContentPreview.Config
import ContentPreview.FileTree
import ContentPreview.Interchange
import ContentPreview.Json.Reader
import ContentPreview.Json.Value
import ContentPreview.Json.Writer
import ContentPreview.Keyed
import ContentPreview.Kind
import ContentPreview.Main
import ContentPreview.Proofs.ArchiveListing
import ContentPreview.Proofs.ArchiveNames
import ContentPreview.Proofs.ArchivePreview
import ContentPreview.Proofs.Bounds
import ContentPreview.Proofs.CommandLine.DirectorySweep
import ContentPreview.Proofs.CommandLine.FlatListing
import ContentPreview.Proofs.Confinement
import ContentPreview.Proofs.FileTree
import ContentPreview.Proofs.Interchange
import ContentPreview.Proofs.Json.Reading
import ContentPreview.Proofs.Json.Writing
import ContentPreview.Proofs.Limiting
import ContentPreview.Proofs.Loop
import ContentPreview.Proofs.MimeGuess
import ContentPreview.Proofs.Path
import ContentPreview.Proofs.Record
import ContentPreview.Proofs.Record.Grammar
import ContentPreview.Proofs.Service.Accounting
import ContentPreview.Proofs.Service.Agreement
import ContentPreview.Proofs.Service.Continuing
import ContentPreview.Proofs.Service.Denial
import ContentPreview.Proofs.Service.Effect
import ContentPreview.Proofs.Service.Failing
import ContentPreview.Proofs.Service.Interaction
import ContentPreview.Proofs.Service.Mislabelled
import ContentPreview.Proofs.Service.Racing
import ContentPreview.Proofs.Service.Reordering
import ContentPreview.Proofs.Service.Reporting
import ContentPreview.Proofs.Service.Resweeping
import ContentPreview.Proofs.Service.Run
import ContentPreview.Proofs.Service.ScratchFiles
import ContentPreview.Proofs.Service.Stability
import ContentPreview.Proofs.Service.Stored
import ContentPreview.Proofs.Service.Storing
import ContentPreview.Proofs.Service.Sweeping
import ContentPreview.Proofs.Service.Traceless
import ContentPreview.Proofs.Service.Turns
import ContentPreview.Proofs.Store
import ContentPreview.Proofs.Store.History
import ContentPreview.Proofs.Store.Identity
import ContentPreview.Proofs.Store.Unreliable
import ContentPreview.Proofs.Text.LossyReading
import ContentPreview.Proofs.Text.Numeral
import ContentPreview.Proofs.Text.Percent
import ContentPreview.Proofs.Text.Truncation
import ContentPreview.Proofs.TextPreview
import ContentPreview.Proofs.Tree.Bounding
import ContentPreview.Proofs.Tree.Canonical
import ContentPreview.Proofs.Tree.Conversion
import ContentPreview.Proofs.Tree.Listing
import ContentPreview.Proofs.Tree.MemberNames
import ContentPreview.Proofs.Tree.Nodes
import ContentPreview.Proofs.Tree.Numbering
import ContentPreview.Proofs.Tree.Placement
import ContentPreview.Proofs.Tree.Rearranging
import ContentPreview.Proofs.Tree.SiblingOrder
import ContentPreview.Proofs.Tree.VisibleCut
import ContentPreview.Proofs.Tree.Walk
import ContentPreview.Proofs.Tree.WellFormed
import ContentPreview.Proofs.Url
import ContentPreview.Record
import ContentPreview.Service
import ContentPreview.Source
import ContentPreview.Store
import ContentPreview.Stream
import ContentPreview.Sweep
import ContentPreview.Text.Cut
import ContentPreview.Text.Encoding
import ContentPreview.Text.Numeral
import ContentPreview.Toml.Quoted
import ContentPreview.Toml.Reader
import ContentPreview.Toml.Scalar
import ContentPreview.Toml.Table
import ContentPreview.Tree.Materialize
import ContentPreview.Tree.Stored
import ContentPreview.Tree.View
