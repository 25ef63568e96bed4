import VersionedTree.DocumentId
import VersionedTree.RevisionVector
import VersionedTree.TimeRange
import VersionedTree.Value

/-!
# Failures

Why an operation of the library did not answer. Each failure has a kind, which callers tell
failures apart by, and a message. Failures that callers raise themselves, from the functions they
pass in or from resources they register, are passed on as they are.
-/

namespace VersionedTree

inductive Kind where
  | runtime
  | value
  | os
  | key
  | missingAttribute
  | wrongType
  | traversal
  | documentStore
  | storeUnavailable
  | cursorClosed
  | snapshotResolution
  | resourceRelease
  | traversalState
  deriving DecidableEq, Inhabited

namespace Kind

def name : Kind → String
  | runtime => "RuntimeError"
  | value => "ValueError"
  | os => "OSError"
  | key => "KeyError"
  | missingAttribute => "AttributeError"
  | wrongType => "TypeError"
  | traversal => "TraversalError"
  | documentStore => "DocumentStoreError"
  | storeUnavailable => "StoreUnavailableError"
  | cursorClosed => "CursorClosedError"
  | snapshotResolution => "SnapshotResolutionError"
  | resourceRelease => "ResourceReleaseError"
  | traversalState => "TraversalStateError"

/-- The kinds of this library that a failure of the given kind belongs to, the narrowest first. -/
def lineage : Kind → List Kind
  | traversal => [traversal]
  | documentStore => [documentStore, traversal]
  | storeUnavailable => [storeUnavailable, documentStore, traversal]
  | cursorClosed => [cursorClosed, documentStore, traversal]
  | snapshotResolution => [snapshotResolution, traversal]
  | resourceRelease => [resourceRelease, traversal]
  | traversalState => [traversalState, traversal]
  | _ => []

end Kind

/-- Why a node cannot be resolved at a snapshot. -/
inductive Unresolved where
  /-- The document under the node's id belongs to another path. -/
  | foreign (id owner : String)
  /-- A bundled node has no bundled parent. -/
  | orphan (key owner : String)
  /-- A store says so, in words of its own or in none. -/
  | reported (message : String)
  deriving DecidableEq

def Unresolved.message (path snapshot : String) : Unresolved → String
  | .foreign id owner => "Document " ++ id ++ " belongs to " ++ owner
  | .orphan key owner =>
    "Bundled node " ++ Quoted.quote key ++ " of " ++ owner ++ " has no bundled parent"
  | .reported message =>
    if message.isEmpty then "Cannot resolve " ++ path ++ " at " ++ snapshot else message

inductive Failure where
  | revision (cause : Revision.Error)
  | range (cause : TimeRange.Error)
  | documentId (cause : DocumentId.Error)
  | settings (problems : List String)
  | cacheSettings (problems : List String)
  /-- A parallel run is to have less than no workers. -/
  | noWorkers
  | missingCluster (cluster : Int)
  | incomparable (relation : String) (left right : Value)
  | notIterable (v : Value)
  /-- An item that should be a pair has no parts. -/
  | partless (index : Nat)
  /-- An item that should be a pair has so many parts. -/
  | notAPair (index parts : Nat)
  | unknownName (name : String)
  | unknownLevel (name : String)
  /-- This text stands under a name of the log, but is no level. -/
  | notALevel (text : String)
  /-- What stands under a name of the log, shown like this, is nothing like a level. -/
  | nothingLikeALevel (shown : String)
  | storeUnavailable
  | cursorClosed (description : String)
  | fetching
  | unresolved (path snapshot : String) (cause : Unresolved)
  /-- Resources failed to close, in this order. -/
  | unreleased (causes : List Failure)
  | alreadyStarted (label : String)
  /-- Raised by the caller. -/
  | raised (kind : Kind) (message : String)

namespace Failure

instance : Inhabited Failure := ⟨storeUnavailable⟩

def kind : Failure → Kind
  | revision _ | range _ | documentId _ | settings _ | cacheSettings _ | noWorkers | notALevel _
  | notAPair .. => .value
  | incomparable .. | notIterable _ | partless _ | nothingLikeALevel _ => .wrongType
  | missingCluster _ | unknownName _ => .key
  | unknownLevel _ => .missingAttribute
  | fetching => .runtime
  | storeUnavailable => .storeUnavailable
  | cursorClosed _ => .cursorClosed
  | unresolved .. => .snapshotResolution
  | unreleased _ => .resourceRelease
  | alreadyStarted _ => .traversalState
  | raised kind _ => kind

mutual

def message : Failure → String
  | revision cause => cause.message
  | range cause => cause.message
  | documentId cause => cause.message
  | settings problems => "Invalid configuration: " ++ String.intercalate "; " problems
  | cacheSettings problems => "Invalid cache configuration: " ++ String.intercalate "; " problems
  | noWorkers => "max_workers must be greater than 0"
  | missingCluster cluster => toString cluster
  | incomparable relation left right =>
    Quoted.quote relation ++ " not supported between instances of "
      ++ Quoted.quote left.kindName ++ " and " ++ Quoted.quote right.kindName
  | notIterable v => Quoted.quote v.kindName ++ " object is not iterable"
  | partless index =>
    "cannot convert dictionary update sequence element #" ++ toString index ++ " to a sequence"
  | notAPair index parts =>
    "dictionary update sequence element #" ++ toString index ++ " has length " ++ toString parts
      ++ "; 2 is required"
  | unknownName name => Quoted.quote name
  | unknownLevel name => "module 'logging' has no attribute '" ++ name ++ "'"
  | notALevel text => "Unknown level: " ++ Quoted.quote text
  | nothingLikeALevel shown => "Level not an integer or a valid string: " ++ shown
  | storeUnavailable => "Document store is not available"
  | cursorClosed description => "Cursor is closed: " ++ description
  | fetching => "aclose(): asynchronous generator is already running"
  | unresolved path snapshot cause => cause.message path snapshot
  | unreleased causes =>
    "Failed to release " ++ toString causes.length ++ " resource(s): "
      ++ String.intercalate "; " (summaries causes)
  | alreadyStarted label =>
    "Traverser " ++ Quoted.quote label ++ " cannot be reconfigured after iteration started"
  | raised _ message => message

def summaries : List Failure → List String
  | [] => []
  | cause :: rest => (cause.kind.name ++ ": " ++ message cause) :: summaries rest

end

/-- The failure that `path` cannot be resolved at the snapshot `vector`. -/
def unresolvedAt (path : String) (vector : RevisionVector) (cause : Unresolved) : Failure :=
  unresolved path vector.text cause

end Failure

end VersionedTree
