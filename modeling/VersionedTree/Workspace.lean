import VersionedTree.Closer
import VersionedTree.Cursor
import VersionedTree.Event
import VersionedTree.Repository
import VersionedTree.Traversal.Pin

/-!
# Workspaces

A workspace is a repository together with the cursors that were opened on it, what is known of the
traversers that read it, and the log. Callers keep a state of their own in it, so that the
functions they pass in can use the workspace and the callers' state alike.
-/

namespace VersionedTree

structure TraverserState where
  /-- Has an iteration begun, so that the traverser cannot be reconfigured? -/
  started : Bool := false
  /-- The subtrees that its next scan leaves out. -/
  hiddenRoots : List String := Path.defaultHiddenRoots
  pin : Pin := {}
  iterations : Nat := 0
  closer : Closer Nat := {}
  tallies : List Tally := []
  deriving Inhabited

structure Workspace (υ : Type) where
  repository : Repository := {}
  /-- The cursors, numbered in the order they were opened. -/
  cursors : List Cursor := []
  /-- The traversers, numbered in the order they were made. -/
  traversers : List TraverserState := []
  /-- The revision at which each path of a built tree was planted last. -/
  planted : OrderedMap Revision := .empty
  log : List Event := []
  caller : υ

namespace Workspace

variable {υ α : Type}

def store (w : Workspace υ) : DocumentStore := w.repository.store

def head (w : Workspace υ) : RevisionVector := w.repository.head

def noted (e : Event) (w : Workspace υ) : Workspace υ := { w with log := w.log ++ [e] }

def note (e : Event) : Action (Workspace υ) Unit := Action.modify (noted e)

def onRepository (x : Action Repository α) : Action (Workspace υ) α :=
  .zoom repository (fun repository w => { w with repository }) x

def onStore (x : Action DocumentStore α) : Action (Workspace υ) α :=
  onRepository (Repository.onStore x)

def changeStore (f : DocumentStore → DocumentStore) : Action (Workspace υ) Unit :=
  onStore (Action.modify f)

/-! ## Writing and reading -/

/-- Writes the node at a path, with bundled descendants. -/
def commit (path : String) (properties : Properties) (bundled : Bundle := .empty)
    (modified : Option Modified := none) : Action (Workspace υ) Revision := do
  let revision ← onRepository (Repository.commit path properties bundled modified)
  note (.commitApplied path revision false)
  pure revision

def remove (path : String) (modified : Option Modified := none) :
    Action (Workspace υ) Revision := do
  let revision ← onRepository (Repository.remove path modified)
  note (.commitApplied path revision true)
  pure revision

/-- Replaces a document by what `updater` makes of it, which may use the workspace. -/
def update (id : String) (updater : Option Document → Action (Workspace υ) Document) :
    Action (Workspace υ) Document := do
  let w ← Action.get
  let d ← updater (w.store.stored? id)
  onStore (DocumentStore.update id fun _ => .ok d)

def node (path : String) (snapshot : RevisionVector) :
    Action (Workspace υ) (Option NodeState) :=
  onRepository (Repository.node path snapshot)

/-! ## Cursors -/

def cursor (w : Workspace υ) (number : Nat) : Cursor := w.cursors.getD number default

def modifyCursor (number : Nat) (f : Cursor → Cursor) (w : Workspace υ) : Workspace υ :=
  { w with cursors := w.cursors.modify number f }

/-- Opens a cursor on the documents in a range: its number, and what it is to stream. -/
def openCursor (range : TimeRange) : Action (Workspace υ) (Nat × List Stored) := do
  let stream ← onStore (DocumentStore.openScan range)
  note (.queryOpened range stream.length)
  let w ← Action.get
  let cursor : Cursor :=
    { description := "nodes " ++ range.text, releases := [⟨.stream, none⟩, ⟨.count, none⟩] }
  Action.modify fun w => { w with cursors := w.cursors ++ [cursor] }
  pure (w.cursors.length, stream)

def setFetching (number : Nat) (fetching : Bool) : Action (Workspace υ) Unit :=
  Action.modify (modifyCursor number fun c => { c with fetching })

def requireOpen (number : Nat) : Action (Workspace υ) Unit := do
  let w ← Action.get
  Action.ofExcept (w.cursor number).requireOpen

def resumeFetch (number : Nat) : Action (Workspace υ) Unit := do
  let w ← Action.get
  Action.ofExcept (w.cursor number).requireUninterrupted

/-- What a scan does with the next document of its stream: the store has to be available, the
filter is asked about the id, and an accepted document is kept in the cache. Answers whether the
document was accepted. -/
def offer (filter : String → Action (Workspace υ) Bool) (item : Stored) :
    Action (Workspace υ) Bool := do
  onStore DocumentStore.requireAvailable
  if ← filter item.id then
    changeStore (·.rememberIfCurrent item)
    pure true
  else pure false

/-- The next document of a stream whose id the filter accepts, and the rest of the stream. -/
def nextAccepted (filter : String → Action (Workspace υ) Bool) :
    List Stored → Action (Workspace υ) (Option (Document × List Stored))
  | [] => pure none
  | item :: rest => do
    if ← offer filter item then pure (some (item.document, rest))
    else nextAccepted filter rest

/-- Reads on from a cursor, which must be open: what came of it, and what is left of the stream.
A stream that failed has come to its end. -/
def fetch (number : Nat) (filter : String → Action (Workspace υ) Bool) (stream : List Stored) :
    Action (Workspace υ) (Except Failure (Option Document) × List Stored) := do
  match ← Action.attempt (requireOpen number) with
  | .error e => pure (.error e, stream)
  | .ok () =>
    match ← Action.attempt (nextAccepted filter stream) with
    | .ok (some (d, rest)) => pure (.ok (some d), rest)
    | .ok none => pure (.ok none, [])
    | .error e => pure (.error e, [])

/-- Does what the release of a part of a cursor comes to. -/
def released (r : Release) (w : Workspace υ) : Workspace υ :=
  match r.part with
  | .count => { w with repository.store := w.store.cursorClosed }
  | .stream | .hook => w

def closeCursor (number : Nat) : Action (Workspace υ) Unit := do
  let w ← Action.get
  let (releases, closed) := (w.cursor number).close
  Action.modify (modifyCursor number fun _ => closed)
  Action.modify fun w => releases.foldl (fun w r => released r w) w
  Action.ofExcept (Cursor.outcome releases)

/-! ## Traversers -/

def traverser (w : Workspace υ) (number : Nat) : TraverserState :=
  w.traversers.getD number default

def modifyTraverser (number : Nat) (f : TraverserState → TraverserState) (w : Workspace υ) :
    Workspace υ :=
  { w with traversers := w.traversers.modify number f }

end Workspace

end VersionedTree
