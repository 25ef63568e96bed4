import VersionedTree.Action
import VersionedTree.Catalog
import VersionedTree.DocumentCache
import VersionedTree.Settings

/-!
# The document store

The collection of documents, with the cache that reads and scans fill. The store can be made
unavailable; then everything that reads or writes documents fails and changes nothing. A scan
streams the documents that were in range when its cursor was opened. The store counts the queries
it opened cursors for and the cursors that are open.
-/

namespace VersionedTree

structure DocumentStore where
  catalog : Catalog := .empty
  nextStamp : Nat := 0
  cache : Option DocumentCache := none
  available : Bool := true
  openCursors : Nat := 0
  queries : Nat := 0
  deriving Inhabited

namespace DocumentStore

def create (s : CacheSettings) : Except Failure DocumentStore := do
  let problems ← s.problems
  if problems.isEmpty then
    return { cache := if s.enabled then some { limit := s.limit? } else none }
  else .error (.cacheSettings problems)

def requireAvailable : Action DocumentStore Unit := fun s =>
  (if s.available then .ok () else .error .storeUnavailable, s)

/-- The stored document of an id, past the cache. -/
def stored? (s : DocumentStore) (id : String) : Option Document :=
  (s.catalog.find? id).map Stored.document

/-- Is a document in the range? The range of all times has also those without a time. -/
def inRange (range : TimeRange) (d : Document) : Bool :=
  range.coversAll || range.contains (d.modified.bind Modified.time?)

/-- The stored documents in a range, in the order of their ids. -/
def select (s : DocumentStore) (range : TimeRange) : List Stored :=
  s.catalog.items.filter fun item => inRange range item.document

/-- Fails if it cannot be told of a stored document whether it is in the range. -/
def requireTimes (s : DocumentStore) (range : TimeRange) : Except Failure Unit :=
  if range.coversAll then .ok ()
  else s.catalog.items.forM fun item => do
    let _ ← range.admits item.document.modified

def estimatedSize (s : DocumentStore) (range : TimeRange) : Except Failure Nat := do
  s.requireTimes range
  return (s.select range).length

def lookUp (id : String) : Action DocumentStore (Option Document) := fun s =>
  match s.cache with
  | none => (.ok none, s)
  | some cache =>
    let (found, cache) := cache.get id
    (.ok found, { s with cache := some cache })

def remember (s : DocumentStore) (d : Document) : DocumentStore :=
  { s with cache := s.cache.map (·.put d) }

def forget (s : DocumentStore) (id : String) : DocumentStore :=
  { s with cache := s.cache.map fun cache => (cache.invalidate id).2 }

/-- Reads a document, from the cache if it is there, and keeps it in the cache otherwise. -/
def find (id : String) : Action DocumentStore (Option Document) := do
  requireAvailable
  match ← lookUp id with
  | some d => pure (some d)
  | none =>
    let s ← Action.get
    match s.stored? id with
    | some d =>
      Action.modify (·.remember d)
      pure (some d)
    | none => pure none

/-- Opens a cursor: what it is to stream, counted as a query and as an open cursor. -/
def openScan (range : TimeRange) : Action DocumentStore (List Stored) := do
  requireAvailable
  let s ← Action.get
  Action.ofExcept (s.requireTimes range)
  Action.modify fun s => { s with openCursors := s.openCursors + 1, queries := s.queries + 1 }
  pure (s.select range)

def cursorClosed (s : DocumentStore) : DocumentStore :=
  { s with openCursors := s.openCursors - 1 }

/-- The store after a scan came across a document: it is kept in the cache if it is still the one
that is stored. The two are told apart by the stamps of their writes, so a document that was written
back in between, even if unchanged, is not the one that the scan came across. -/
def rememberIfCurrent (s : DocumentStore) (item : Stored) : DocumentStore :=
  match s.catalog.find? item.id with
  | some current => if current.stamp = item.stamp then s.remember item.document else s
  | none => s

def write (d : Document) : Action DocumentStore Unit := do
  requireAvailable
  Action.modify fun s =>
    { s.forget d.id with catalog := s.catalog.put ⟨s.nextStamp, d⟩, nextStamp := s.nextStamp + 1 }

def delete (id : String) : Action DocumentStore Bool := do
  requireAvailable
  let s ← Action.get
  Action.modify fun s => { s.forget id with catalog := s.catalog.erase id }
  pure (s.catalog.find? id).isSome

def update (id : String) (updater : Option Document → Except Failure Document) :
    Action DocumentStore Document := do
  let s ← Action.get
  let d ← Action.ofExcept (updater (s.stored? id))
  write d
  pure d

def setAvailable (s : DocumentStore) (available : Bool) : DocumentStore := { s with available }

end DocumentStore

end VersionedTree
