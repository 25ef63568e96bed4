import VersionedTree.Traversal.EntryStream

/-!
# Parallel traversal

A range is split into parts with a traverser for each, all at one snapshot. Workers run traversers
to their ends whatever becomes of the others; the order of the list is the order in which they
run and finish.
-/

namespace VersionedTree

namespace Traverser

variable {υ : Type}

/-- Makes a traverser for each part of a range, at one snapshot: the given one or the head. The
labels are the given one with the parts' numbers. -/
def createPartitioned (t : Traverser υ) (parts : Int) (snapshot : Option RevisionVector)
    (hiddenRoots : List String := Path.defaultHiddenRoots) :
    Action (Workspace υ) (List (Traverser υ)) := do
  let v ← match snapshot with
    | some v => pure v
    | none => t.backend.head
  let ranges ← Action.ofExcept ((t.range.split parts).mapError .range)
  ranges.zipIdx.mapM fun (range, i) =>
    { t with label := t.label ++ "-" ++ toString i, range }.create (some v) hiddenRoots

/-- Feeds all entries of a traverser to a consumer and closes it; answers with their number. -/
def consume (t : Traverser υ) (consumer : Entry → Action (Workspace υ) Unit) :
    Action (Workspace υ) Nat :=
  Action.guarded
    (t.fold (fun n e => do
      consumer e
      pure (n + 1)) 0)
    t.close

/-- Takes up the outcomes of finished workers one after the other: counts are kept under the
traverser's label, the first failure ends it. -/
def gatherCounts : List (Traverser υ × Except Failure Nat) → OrderedMap Nat →
    Action (Workspace υ) (OrderedMap Nat)
  | [], counts => pure counts
  | (t, outcome) :: rest, counts => do
    let n ← Action.ofExcept outcome
    Workspace.note (.partitionCompleted t.label t.range n)
    gatherCounts rest (counts.put t.label n)

/-- Runs traversers side by side, with at most so many workers; 0 and none stand for one worker
each. Answers with the number of entries for each label. -/
def parallel (ts : List (Traverser υ)) (consumer : Entry → Action (Workspace υ) Unit)
    (maxWorkers : Option Int) : Action (Workspace υ) (OrderedMap Nat) := do
  if ts.isEmpty then pure .empty
  else if maxWorkers.any (· < 0) then Action.fail .noWorkers
  else
    let outcomes ← ts.mapM fun t => return (t, ← Action.attempt (t.consume consumer))
    gatherCounts outcomes .empty

end Traverser

def EntryQuery.partitioned {υ : Type} (q : EntryQuery υ)
    (consumer : Entry → Action (Workspace υ) Unit) : Action (Workspace υ) (OrderedMap Nat) := do
  q.settings.check
  let t := Traverser.described q.settings .nodes q.backend
  let ts ← t.createPartitioned (q.settings.partitions.getD 1) q.snapshot q.settings.hiddenRoots
  Traverser.parallel ts consumer q.settings.maxWorkers

end VersionedTree
