import VersionedTree.Traversal.Traverser

/-!
# Scans

An iteration of a traverser is a scan that is suspended between two steps. A step goes through the
documents of the scan's stream until one has a node at the snapshot, and delivers that node and
then the ones bundled with it. `advance` takes one step for a consumer that asks for entries one by
one; `fold` works all entries into a value. Both handle a document by `visit`.
-/

namespace VersionedTree

structure Scan where
  /-- Which of the traverser's tallies counts this scan. -/
  tally : Nat
  cursor : Nat
  snapshot : RevisionVector
  hiddenRoots : List String
  remaining : List Stored
  /-- What is still to be delivered of the document visited last. -/
  pending : Expansion := {}
  /-- The modification time of that document, as it was put down. -/
  modified : Option Modified := none
  produced : Nat := 0
  /-- Could others run since the document visited last? -/
  rested : Bool := true
  deriving Inhabited

inductive Iteration where
  /-- It has not begun to scan; iterations of a traverser are told apart by a ticket. -/
  | entering (ticket : Nat)
  | reading
  | scanning (scan : Scan)
  | finished
  deriving Inhabited

inductive Step where
  | entry (e : Entry) (next : Iteration)
  /-- Nothing yet: others may run. -/
  | paused (next : Iteration)
  /-- Nothing until the iteration is called to enter again. -/
  | waiting (ticket : Nat)
  | finished

inductive Visit where
  | skipped
  | dropped
  | found (first : NodeState) (more : Expansion)

namespace Traverser

variable {υ β : Type}

/-- The filter of a scan, which counts into the scan's tally. -/
def filter (t : Traverser υ) (scan : Scan) : PathFilter (Workspace υ) where
  predicate := t.predicate
  progress := t.progress
  hiddenRoots := scan.hiddenRoots
  count f := t.modifyState fun s => { s with tallies := s.tallies.modify scan.tally f }

/-- The states that a node's document holds, the node's own state first. Who delivers document by
document fails at once if some bundled node has no place in the tree. -/
def unfold (t : Traverser υ) (s : NodeState) : Except Failure Expansion :=
  let below := s.descendants
  match t.delivery, below.failure with
  | .documents, some e => .error e
  | _, _ => .ok below

def materialize (t : Traverser υ) (d : Document) (snapshot : RevisionVector) :
    Action (Workspace υ) (Option (NodeState × Expansion)) := do
  match ← t.backend.node d.path snapshot with
  | none => pure none
  | some s => if s.present then return some (s, ← Action.ofExcept (t.unfold s)) else pure none

/-- Visits the next document of a scan: both stages of the filter, then the node at the snapshot. -/
def visit (t : Traverser υ) (scan : Scan) (item : Stored) : Action (Workspace υ) Visit := do
  let filter := t.filter scan
  if ← Workspace.offer filter.includeId item then
    if ← filter.includeDocument item.document then
      match ← t.materialize item.document scan.snapshot with
      | some (first, more) => pure (.found first more)
      | none => pure .dropped
    else pure .dropped
  else pure .skipped

def complete (t : Traverser υ) (scan : Scan) (produced : Nat) : Action (Workspace υ) Unit := do
  let w ← Action.get
  Workspace.note (.scanCompleted t.label produced ((t.state w).tallies.getD scan.tally {}))

/-- Visits documents until one has something to deliver. After a document that has not, others may
run if the step may pause, and the cursor has to be open still. -/
def seek (t : Traverser υ) (mayPause : Bool) (scan : Scan) :
    List Stored → Action (Workspace υ) Step
  | [] => do
    t.complete scan scan.produced
    pure .finished
  | item :: rest => do
    match ← t.visit scan item with
    | .skipped => t.seek mayPause scan rest
    | .dropped =>
      Workspace.requireOpen scan.cursor
      if mayPause then pure (.paused (.scanning { scan with remaining := rest, rested := true }))
      else t.seek mayPause scan rest
    | .found first more =>
      pure <| .entry (.ofState item.document.modified first) <| .scanning
        { scan with
          remaining := rest, pending := more, modified := item.document.modified
          produced := scan.produced + 1, rested := false }

/-- Takes one step of a scan: the next state of the document visited last, or on to the next
document that has one. Between two documents the step pauses if it may and nobody else could run
since. -/
def advanceScan (t : Traverser υ) (mayPause : Bool) (scan : Scan) : Action (Workspace υ) Step :=
  match scan.pending.states, scan.pending.failure with
  | s :: rest, failure =>
    pure <| .entry (.ofState scan.modified s) <| .scanning
      { scan with pending := ⟨rest, failure⟩, produced := scan.produced + 1 }
  | [], some e => Action.fail e
  | [], none =>
    if scan.rested then do
      Workspace.resumeFetch scan.cursor
      t.seek mayPause scan scan.remaining
    else do
      Workspace.requireOpen scan.cursor
      if mayPause then pure (.paused (.scanning { scan with rested := true }))
      else t.seek mayPause scan scan.remaining

/-- Begins an iteration; answers with its ticket. From now on the traverser cannot be
reconfigured. -/
def iterate (t : Traverser υ) : Action (Workspace υ) Nat := do
  let w ← Action.get
  Action.modify <| t.modifyState fun s => { s with started := true, iterations := s.iterations + 1 }
  pure (t.state w).iterations

/-- Opens the scan of an iteration at a snapshot. It leaves out what the traverser hides by now. -/
def openScan (t : Traverser υ) (snapshot : RevisionVector) : Action (Workspace υ) Scan := do
  let w ← Action.get
  let { tallies, hiddenRoots, .. } := t.state w
  let tally := tallies.length
  Action.modify <| t.modifyState fun s => { s with tallies := s.tallies ++ [{}] }
  let (cursor, remaining) ← t.backend.openCursor t.range
  Action.modify <| t.modifyState fun s => { s with closer := s.closer.register cursor }
  Workspace.note (.scanStarted t.label t.range snapshot)
  pure { tally, cursor, snapshot, hiddenRoots, remaining }

/-- An iteration that has not begun to scan asks what it is to do. -/
def ask (t : Traverser υ) (ticket : Nat) : Action (Workspace υ) Pin.Turn := do
  let w ← Action.get
  let (turn, pin) := (t.state w).pin.ask ticket
  Action.modify (t.modifyState fun s => { s with pin })
  pure turn

/-- Reads the head for all iterations of the traverser, and opens the scan of the one that does. -/
def readHead (t : Traverser υ) : Action (Workspace υ) Scan := do
  let head ← Action.attempt t.backend.head
  Action.modify (t.modifyState fun s => { s with pin := s.pin.answer head })
  t.openScan (← Action.ofExcept head)

/-- Takes one step of an iteration. A step that may pause does so before it reads a head that
comes late. -/
def advance (t : Traverser υ) (mayPause : Bool) : Iteration → Action (Workspace υ) Step
  | .finished => pure .finished
  | .scanning scan => t.advanceScan mayPause scan
  | .reading => do t.advanceScan mayPause (← t.readHead)
  | .entering ticket => do
    match ← t.ask ticket with
    | .pinned snapshot => t.advanceScan mayPause (← t.openScan snapshot)
    | .read =>
      if mayPause ∧ t.backend.headPauses then pure (.paused .reading)
      else t.advanceScan mayPause (← t.readHead)
    | .wait => pure (.waiting ticket)

/-- The next entry of an iteration that has its traverser for itself. -/
def next (t : Traverser υ) (it : Iteration) :
    Action (Workspace υ) (Option (Entry × Iteration)) := do
  match ← t.advance false it with
  | .entry e it => pure (some (e, it))
  | .paused _ | .waiting _ | .finished => pure none

/-- Opens the scan of an iteration that has its traverser for itself. -/
def enter (t : Traverser υ) (ticket : Nat) : Action (Workspace υ) (Option Scan) := do
  match ← t.ask ticket with
  | .pinned snapshot => return some (← t.openScan snapshot)
  | .read => return some (← t.readHead)
  | .wait => pure none

/-- Works the entries of the documents still to be visited into a value. -/
def foldRest (t : Traverser υ) (f : β → Entry → Action (Workspace υ) β) (scan : Scan) :
    List Stored → Nat → β → Action (Workspace υ) β
  | [], produced, b => do
    t.complete scan produced
    pure b
  | item :: rest, produced, b => do
    match ← t.visit scan item with
    | .skipped => t.foldRest f scan rest produced b
    | .dropped =>
      Workspace.requireOpen scan.cursor
      t.foldRest f scan rest produced b
    | .found first more =>
      let entries := (first :: more.states).map (Entry.ofState item.document.modified)
      let b ← entries.foldlM f b
      match more.failure with
      | some e => Action.fail e
      | none =>
        Workspace.requireOpen scan.cursor
        t.foldRest f scan rest (produced + entries.length) b

def fold (t : Traverser υ) (f : β → Entry → Action (Workspace υ) β) (b : β) :
    Action (Workspace υ) β := do
  let ticket ← t.iterate
  match ← t.enter ticket with
  | some scan =>
    Workspace.requireOpen scan.cursor
    t.foldRest f scan scan.remaining 0 b
  | none => pure b

end Traverser

end VersionedTree
