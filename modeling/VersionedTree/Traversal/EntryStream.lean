import VersionedTree.Traversal.Scan

/-!
# Entry streams

Traversals for callers that only want the entries: a stream makes its traverser when the first
entry is asked for and closes it when it ends, fails or is stopped.
-/

namespace VersionedTree

structure EntryQuery (υ : Type) where
  settings : TraversalSettings (Workspace υ) := {}
  delivery : Delivery := .nodes
  backend : Backend υ := .memory
  /-- The snapshot to read, the head if none is given. -/
  snapshot : Option RevisionVector := none

inductive EntryStream where
  | unopened
  | running (traverser : Nat) (iteration : Iteration)
  | finished
  deriving Inhabited

namespace EntryQuery

variable {υ β : Type}

def traverser (q : EntryQuery υ) (number : Nat) : Traverser υ :=
  { Traverser.described q.settings q.delivery q.backend with number }

def openTraverser (q : EntryQuery υ) : Action (Workspace υ) (Traverser υ) :=
  Traverser.ofSettings q.settings q.delivery q.backend q.snapshot

/-- Takes one step on behalf of a stream, and closes the traverser if no entry comes. -/
def step (t : Traverser υ) (it : Iteration) :
    Action (Workspace υ) (Option (Entry × EntryStream)) := do
  match ← Action.attempt (t.next it) with
  | .ok (some (e, it)) => pure (some (e, .running t.number it))
  | outcome =>
    t.close
    let _ ← Action.ofExcept outcome
    pure none

def next (q : EntryQuery υ) : EntryStream → Action (Workspace υ) (Option (Entry × EntryStream))
  | .unopened => do
    let t ← q.openTraverser
    step t (.entering (← t.iterate))
  | .running number it => step (q.traverser number) it
  | .finished => pure none

def stop (q : EntryQuery υ) : EntryStream → Action (Workspace υ) Unit
  | .running number _ => (q.traverser number).close
  | .unopened | .finished => pure ()

/-- Works all entries into a value and closes the traverser. -/
def fold (q : EntryQuery υ) (f : β → Entry → Action (Workspace υ) β) (b : β) :
    Action (Workspace υ) β := do
  let t ← q.openTraverser
  Action.guarded (t.fold f b) t.close

def paths (q : EntryQuery υ) : Action (Workspace υ) (List String) :=
  q.fold (fun paths e => pure (paths ++ [e.path])) []

def count (q : EntryQuery υ) : Action (Workspace υ) Nat :=
  q.fold (fun n _ => pure (n + 1)) 0

end EntryQuery

end VersionedTree
