import VersionedTree.Modified
import VersionedTree.OrderedMap
import VersionedTree.StableSort

/-!
# Documents

A document is one stored record. It keeps every version of a node that was committed, and each
version may carry the properties of descendants that are bundled with the node. What a snapshot
sees of a document is the newest of the versions visible to it.
-/

namespace VersionedTree

/-- Bundled descendants: properties for paths relative to the node that carries them. -/
abbrev Bundle := OrderedMap Properties

/-- What a document is for. All but live documents are split off a node's main document. -/
inductive SplitKind where
  | live
  | ordinary
  | intermediate
  | leaf
  | commitRootOnly
  | noBranch
  deriving DecidableEq, Inhabited

/-- One version of a document: the properties written at a revision, or none if the node was
removed. -/
structure Commit where
  revision : Revision
  properties : Option Properties
  bundled : Bundle := .empty
  deriving Inhabited

def Commit.isDeletion (c : Commit) : Bool := c.properties.isNone

/-- A stored record. Its modification time may be unknown. -/
structure Document where
  id : String
  path : String
  modified : Option Modified := none
  split : SplitKind := .live
  commits : List Commit := []
  deriving Inhabited

namespace Document

def forPath (path : String) : Document := { id := DocumentId.ofPath path, path }

def isSplit (d : Document) : Bool := d.split ≠ .live

def isPrevious (d : Document) : Bool := DocumentId.isPrevious d.id

/-- The document with one more version, all of them in the order of their revisions and equal
ones in the order they came; with a new modification time if one is given. -/
def withCommit (d : Document) (c : Commit) (modified : Option Modified := none) :
    Document :=
  { d with
    commits := sortStable (fun a b => a.revision < b.revision) (d.commits ++ [c])
    modified := modified.orElse fun _ => d.modified }

/-- One step of looking for the newest visible version: the first of the greatest revision. -/
def newer (v : RevisionVector) (best : Option Commit) (c : Commit) : Option Commit :=
  if v.sees c.revision then
    match best with
    | some b => if b.revision < c.revision then some c else some b
    | none => some c
  else best

/-- The newest version that the snapshot `v` sees, be it a removal or not. -/
def newestVisible (d : Document) (v : RevisionVector) : Option Commit :=
  d.commits.foldl (newer v) none

/-- The version that the snapshot `v` finds: the newest visible one unless that is a removal. -/
def resolve (d : Document) (v : RevisionVector) : Option Commit :=
  (d.newestVisible v).filter fun c => !c.isDeletion

def shown (d : Document) : String :=
  "NodeDocument(id=" ++ Quoted.quote d.id ++ ", modified="
    ++ (Modified.toValue d.modified).shown ++ ")"

end Document

end VersionedTree
