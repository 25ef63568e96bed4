import VersionedTree.Settings
import VersionedTree.Workspace

/-!
# Traversers

A traverser reads the nodes of a tree at one snapshot, in any number of iterations. It reads the
stores through a backend, asks the caller's functions which paths to take, and owns the cursors of
its scans until it is closed.
-/

namespace VersionedTree

/-- How a traverser reads the stores. -/
structure Backend (υ : Type) where
  /-- Opens a cursor on the documents in a range: its number, and what it is to stream. -/
  openCursor : TimeRange → Action (Workspace υ) (Nat × List Stored)
  head : Action (Workspace υ) RevisionVector
  /-- May others run before the head is read? -/
  headPauses : Bool := false
  node : String → RevisionVector → Action (Workspace υ) (Option NodeState)

def Backend.memory {υ : Type} : Backend υ where
  openCursor := Workspace.openCursor
  head := do return (← Action.get).head
  node := Workspace.node

inductive Delivery where
  /-- Node by node: bundled nodes are unfolded when they are asked for. -/
  | nodes
  /-- Document by document: all nodes of a document are there before the first is delivered, and
  others may run between two documents. -/
  | documents
  deriving DecidableEq, Inhabited

structure Traverser (υ : Type) where
  number : Nat := 0
  label : String
  range : TimeRange := .all
  delivery : Delivery := .nodes
  predicate : String → Action (Workspace υ) Bool := fun _ => pure true
  /-- Is told every id that a scan comes across. -/
  progress : String → Action (Workspace υ) Unit := fun _ => pure ()
  backend : Backend υ := .memory

namespace Traverser

variable {υ : Type}

instance : Inhabited (Traverser υ) := ⟨{ label := "" }⟩

def state (t : Traverser υ) (w : Workspace υ) : TraverserState := w.traverser t.number

def modifyState (t : Traverser υ) (f : TraverserState → TraverserState) :
    Workspace υ → Workspace υ :=
  Workspace.modifyTraverser t.number f

/-- Enters a traverser into the workspace, with what is known of it at first. -/
def enroll (t : Traverser υ) (state : TraverserState) : Action (Workspace υ) (Traverser υ) := do
  let w ← Action.get
  Action.modify fun w => { w with traversers := w.traversers ++ [state] }
  pure { t with number := w.traversers.length }

/-- Makes a traverser of a snapshot, of the head if none is given. -/
def create (t : Traverser υ) (snapshot : Option RevisionVector)
    (hiddenRoots : List String := Path.defaultHiddenRoots) :
    Action (Workspace υ) (Traverser υ) := do
  let v ← match snapshot with
    | some v => pure v
    | none => t.backend.head
  t.enroll { pin := .of v, hiddenRoots }

/-- Makes a traverser that, unless a snapshot is given, reads the head when it first iterates. -/
def createLazily (t : Traverser υ) (snapshot : Option RevisionVector) :
    Action (Workspace υ) (Traverser υ) :=
  t.enroll { pin := { snapshot } }

/-- The traverser that settings describe, but for what it hides: that is told when it is made. -/
def described (settings : TraversalSettings (Workspace υ)) (delivery : Delivery)
    (backend : Backend υ) : Traverser υ where
  label := settings.label.getD ""
  range := settings.range
  delivery := delivery
  predicate := settings.predicate.getD fun _ => pure true
  progress := settings.progress.getD fun _ => pure ()
  backend := backend

/-- Makes the traverser that settings describe, if they are sound. -/
def ofSettings (settings : TraversalSettings (Workspace υ)) (delivery : Delivery)
    (backend : Backend υ) (snapshot : Option RevisionVector) :
    Action (Workspace υ) (Traverser υ) := do
  settings.check
  (described settings delivery backend).create snapshot settings.hiddenRoots

/-- Fails once an iteration has begun: a traverser is configured before. -/
def requireFresh (t : Traverser υ) : Action (Workspace υ) Unit := do
  let w ← Action.get
  if (t.state w).started then Action.fail (.alreadyStarted t.label) else pure ()

/-- Leaves out these subtrees instead of others, in all scans: none has begun yet. -/
def hide (t : Traverser υ) (roots : List String) : Action (Workspace υ) Unit := do
  t.requireFresh
  Action.modify (t.modifyState fun s => { s with hiddenRoots := roots })

def cursorName (t : Traverser υ) (w : Workspace υ) (number : Nat) : Option String :=
  match t.delivery with
  | .nodes => some (w.cursor number).shown
  | .documents => none

/-- Closes every cursor of the traverser that is not closed yet. -/
def close (t : Traverser υ) : Action (Workspace υ) Unit := do
  let w ← Action.get
  let pending := (t.state w).closer.pending
  Closer.close (fun w => (t.state w).closer)
    (fun closer => t.modifyState fun s => { s with closer })
    Workspace.closeCursor
    (fun number e w => Workspace.noted (.closeFailed (t.cursorName w number) e.message) w)
  if t.delivery = .nodes ∧ pending ≠ 0 then Workspace.note (.traverserClosed t.label pending)
  else pure ()

/-- Leaves a scope that ends by closing the traverser. If a failure is on its way out of the
scope, one of closing is logged and gives way to it. -/
def leave (t : Traverser υ) (onTheWay : Option Failure) : Action (Workspace υ) Unit :=
  match onTheWay with
  | none => t.close
  | some e => do
    match ← Action.attempt t.close with
    | .ok () => pure ()
    | .error (.unreleased causes) =>
      Workspace.note (.releaseFailed t.label (causes.map Failure.message))
    | .error e' => Action.fail e'
    Action.fail e

def shown (t : Traverser υ) (snapshot : RevisionVector) : String :=
  "NodeStateEntryTraverser(label=" ++ Quoted.quote t.label ++ ", range=" ++ t.range.text
    ++ ", revision=" ++ snapshot.text ++ ")"

end Traverser

end VersionedTree
