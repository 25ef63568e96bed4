import VersionedTree.Path
import VersionedTree.StableSort
import VersionedTree.Text.Hexadecimal
import VersionedTree.Text.FixedPoint
import VersionedTree.Text.Unprintable
import VersionedTree.Text.Quoted
import VersionedTree.Text.Capitals
import VersionedTree.Sha256
import VersionedTree.Revision
import VersionedTree.RevisionVector
import VersionedTree.TimeRange
import VersionedTree.TimeRange.Partition
import VersionedTree.DocumentId
import VersionedTree.Value
import VersionedTree.Value.Reading
import VersionedTree.Value.Canonical
import VersionedTree.OrderedMap
import VersionedTree.Failure
import VersionedTree.Modified
import VersionedTree.Action
import VersionedTree.Document
import VersionedTree.NodeState
import VersionedTree.DocumentCache
import VersionedTree.Catalog
import VersionedTree.Settings
import VersionedTree.DocumentStore
import VersionedTree.Repository
import VersionedTree.PathPattern
import VersionedTree.PathFilter
import VersionedTree.Event
import VersionedTree.Interchange
import VersionedTree.Closer
import VersionedTree.Cursor
import VersionedTree.Workspace
import VersionedTree.TreeBuilder
import VersionedTree.Traversal.Pin
import VersionedTree.Traversal.Traverser
import VersionedTree.Traversal.Scan
import VersionedTree.Traversal.EntryStream
import VersionedTree.Traversal.Parallel
import VersionedTree.Traversal.Concurrent
import VersionedTree.Traversal.FaultPlan
import VersionedTree.Proofs.Actions
import VersionedTree.Proofs.Versions
import VersionedTree.Proofs.Resolution
import VersionedTree.Proofs.Visibility
import VersionedTree.Proofs.VectorTexts
import VersionedTree.Proofs.RevisionTexts
import VersionedTree.Proofs.Catalogs
import VersionedTree.Proofs.Names
import VersionedTree.Proofs.Numerals
import VersionedTree.Proofs.DocumentIds
import VersionedTree.Proofs.Subjects
import VersionedTree.Proofs.Coherence
import VersionedTree.Proofs.Recency
import VersionedTree.Proofs.Writes
import VersionedTree.Proofs.Snapshots
import VersionedTree.Proofs.Histories
import VersionedTree.Proofs.Ranges
import VersionedTree.Proofs.Tilings
import VersionedTree.Proofs.Yields
import VersionedTree.Proofs.Scans
import VersionedTree.Proofs.Gathering
import VersionedTree.Proofs.Closing
import VersionedTree.Proofs.Isolation
import VersionedTree.Proofs.Fleets
import VersionedTree.Proofs.Transparency
import VersionedTree.Proofs.Clients
import VersionedTree.Proofs.Couplings
import VersionedTree.Proofs.Journals
import VersionedTree.Proofs.Readback
import VersionedTree.Proofs.Outages
import VersionedTree.Proofs.Visits
import VersionedTree.Proofs.Twins
import VersionedTree.Proofs.Exclusion
import VersionedTree.Proofs.Bundles
import VersionedTree.Proofs.Branches
import VersionedTree.Proofs.Spellings
import VersionedTree.Proofs.Preorders
import VersionedTree.Proofs.Enumeration
import VersionedTree.Proofs.Deliveries
import VersionedTree.Proofs.Partitioned
import VersionedTree.Proofs.Splitting
import VersionedTree.Proofs.Increments
import VersionedTree.Proofs.BoundedSplits
import VersionedTree.Proofs.Accounts
import VersionedTree.Proofs.Turns
import VersionedTree.Proofs.Releases
import VersionedTree.Proofs.Sweeps
import VersionedTree.Proofs.Courses
import VersionedTree.Proofs.Schedules
import VersionedTree.Proofs.Records
import VersionedTree.Proofs.Interludes
import VersionedTree.Proofs.Truncation
import VersionedTree.Proofs.Crowds
import VersionedTree.Proofs.Stages
import VersionedTree.Proofs.Tallies
import VersionedTree.Proofs.Troubles
import VersionedTree.Proofs.Coverage
import VersionedTree.Proofs.Subtrees
import VersionedTree.Proofs.Depths
import VersionedTree.Proofs.Crews
import VersionedTree.Proofs.Ancestry
import VersionedTree.Proofs.Closers
import VersionedTree.Proofs.Scopes
