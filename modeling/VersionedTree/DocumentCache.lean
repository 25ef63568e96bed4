import VersionedTree.Document
import VersionedTree.Text.FixedPoint

/-!
# The document cache

Documents by id, least recently used first. A bounded cache keeps a number of them and gives up
the oldest ones for new ones; using a document makes it the newest. An unbounded cache keeps all,
in the order they first came in.
-/

namespace VersionedTree

/-- A cache with its counts of lookups that found something, of those that did not, and of
documents given up for room. -/
structure DocumentCache where
  /-- How many documents are kept, if that is bounded. -/
  limit : Option Nat
  held : OrderedMap Document := .empty
  hits : Nat := 0
  misses : Nat := 0
  evictions : Nat := 0
  deriving Inhabited

namespace DocumentCache

def ids (c : DocumentCache) : List String := c.held.keys

def size (c : DocumentCache) : Nat := c.held.size

def contains (c : DocumentCache) (id : String) : Bool := c.held.contains id

def get (c : DocumentCache) (id : String) : Option Document × DocumentCache :=
  match c.held.get? id with
  | none => (none, { c with misses := c.misses + 1 })
  | some d =>
    let held := if c.limit.isSome then c.held.renew id d else c.held
    (some d, { c with hits := c.hits + 1, held })

def evict (c : DocumentCache) : DocumentCache :=
  let excess := match c.limit with
    | some limit => c.size - limit
    | none => 0
  { c with held := c.held.dropOldest excess, evictions := c.evictions + excess }

def put (c : DocumentCache) (d : Document) : DocumentCache :=
  let held := if c.limit.isSome then c.held.renew d.id d else c.held.put d.id d
  evict { c with held }

def invalidate (c : DocumentCache) (id : String) : Nat × DocumentCache :=
  (if c.contains id then 1 else 0, { c with held := c.held.erase id })

/-- Drops all documents; the counts stay. -/
def clear (c : DocumentCache) : DocumentCache := { c with held := .empty }

/-- The share of lookups that found something, once there were any. -/
def hitRate? (c : DocumentCache) : Option String :=
  let lookups := c.hits + c.misses
  if lookups = 0 then none else some (FixedPoint.ratio c.hits lookups)

end DocumentCache

end VersionedTree
