import VersionedTree.DocumentStore
import VersionedTree.NodeState

/-!
# Repositories

A repository writes nodes into a document store as one cluster node and reads them back at any
snapshot. Each write takes the next tick of the writer's clock as its revision and, when it
succeeds, moves the head, which is the snapshot of all that the writer has written.
-/

namespace VersionedTree

/-- A cluster node that writes: its clock and the snapshot of what it has written. -/
structure Writer where
  cluster : Int := 1
  clock : Nat := 0
  head : RevisionVector := .empty
  deriving Inhabited

structure Repository where
  store : DocumentStore := {}
  writer : Writer := {}
  deriving Inhabited

namespace Repository

def head (r : Repository) : RevisionVector := r.writer.head

def onStore {α : Type} (x : Action DocumentStore α) : Action Repository α :=
  .zoom store (fun store r => { r with store }) x

/-- The next revision of the writer. The clock moves on even if the write then fails. -/
def nextRevision : Action Repository Revision := do
  Action.modify fun r => { r with writer.clock := r.writer.clock + 1 }
  let r ← Action.get
  Action.ofExcept ((Revision.ofInts r.writer.clock 0 r.writer.cluster).mapError .revision)

/-- Writes a version of the node at a path: its properties, or none to remove it. -/
def writeVersion (path : String) (properties : Option Properties) (bundled : Bundle)
    (modified : Option Modified) : Action Repository Revision := do
  let revision ← nextRevision
  let modified := modified.getD (.time revision.timestamp)
  let _ ← onStore <| DocumentStore.update (DocumentId.ofPath path) fun current =>
    .ok ((current.getD (.forPath path)).withCommit { revision, properties, bundled }
      (some modified))
  Action.modify fun r => { r with writer.head := r.writer.head.update revision }
  pure revision

/-- Writes the node at a path, with bundled descendants. The document's modification time is the
revision's timestamp unless another one is given. -/
def commit (path : String) (properties : Properties) (bundled : Bundle := .empty)
    (modified : Option Modified := none) : Action Repository Revision :=
  writeVersion path (some properties) bundled modified

/-- Removes the node at a path. Its document stays. -/
def remove (path : String) (modified : Option Modified := none) : Action Repository Revision :=
  writeVersion path none .empty modified

/-- Writes what there is of a path's versions into a previous document, under the revision of the
writer's head or, before its first write, under its revision at time 0. -/
def addPrevious (path : String) (height : Int := 0) (modified : Option Modified := none)
    (split : SplitKind := .ordinary) : Action Repository Document := do
  let main ← onStore (DocumentStore.find (DocumentId.ofPath path))
  let r ← Action.get
  let revision ← match r.head.held? r.writer.cluster with
    | some own => pure own
    | none => Action.ofExcept ((Revision.ofInts 0 0 r.writer.cluster).mapError .revision)
  let d : Document :=
    { id := DocumentId.previous path revision height, path, modified, split
      commits := (main.map Document.commits).getD [] }
  onStore (DocumentStore.write d)
  pure d

def node (path : String) (snapshot : RevisionVector) : Action Repository (Option NodeState) := do
  match ← onStore (DocumentStore.find (DocumentId.ofPath path)) with
  | none => pure none
  | some d =>
    if d.path ≠ path then .fail (.unresolvedAt path snapshot (.foreign d.id d.path))
    else match d.resolve snapshot with
      | none => pure none
      | some c =>
        pure <| some
          { path, snapshot := some snapshot, lastRevision := some c.revision
            properties := c.properties.getD [], bundled := c.bundled }

end Repository

end VersionedTree
