import VersionedTree.Action

/-!
# Settings

What callers choose about a cache and about a traversal. Settings that make no sense can be
written down; `problems` says what is wrong with them.
-/

namespace VersionedTree

/-- The choices about a document cache. -/
structure CacheSettings where
  enabled : Bool := true
  /-- Keep no more than `maxEntries` documents? -/
  bounded : Bool := true
  /-- Nothing if that is left open, which only an unbounded cache can do with. -/
  maxEntries : Option Int := some 10000
  deriving DecidableEq, Inhabited

namespace CacheSettings

def limit? (s : CacheSettings) : Option Nat :=
  if s.bounded then s.maxEntries.map Int.toNat else none

def problems (s : CacheSettings) : Except Failure (List String) :=
  match s.bounded, s.maxEntries with
  | false, _ => .ok []
  | true, some n => .ok (if n ≤ 0 then ["max_entries must be positive"] else [])
  | true, none => .error (.incomparable "<=" .null (.number 0))

end CacheSettings

/-- The choices about a traversal that runs on a state of type `σ`. A function that is missing
stands for one that the caller gave no usable value for. -/
structure TraversalSettings (σ : Type) where
  /-- Nothing if that is left open. -/
  label : Option String := some "traversal"
  range : TimeRange := .all
  hiddenRoots : List String := Path.defaultHiddenRoots
  /-- Decides on the paths to be traversed. -/
  predicate : Option (String → Action σ Bool) := some fun _ => pure true
  /-- Is told every id that the scan comes across. -/
  progress : Option (String → Action σ Unit) := some fun _ => pure ()
  /-- How many ranges a parallel run splits the range into. No run can do without. -/
  partitions : Option Int := some 1
  /-- How many workers a parallel run has; one per partition if that is left open. -/
  maxWorkers : Option Int := none

namespace TraversalSettings

variable {σ : Type}

instance : Inhabited (TraversalSettings σ) := ⟨{}⟩

/-- Only what was modified from `since` on, and before `until?` if that is given. -/
def incremental (label : Option String) (since : Int) (until? : Option Int := none) :
    Except TimeRange.Error (TraversalSettings σ) := do
  let range ← TimeRange.ofLimits since (until?.getD TimeRange.unlimited)
  return { label, range }

def partitioned (label : Option String) (partitions : Option Int)
    (maxWorkers : Option Int := none) : TraversalSettings σ :=
  { label, partitions, maxWorkers }

def problems (s : TraversalSettings σ) : Except Failure (List String) := do
  let some partitions := s.partitions | .error (.incomparable "<=" .null (.number 0))
  return (if (s.label.getD "").isEmpty then ["label cannot be empty"] else [])
    ++ (s.hiddenRoots.filter fun top => !Path.isAbsolute top).map
      (fun top => "hidden root must be an absolute path: " ++ Quoted.quote top)
    ++ (if s.predicate.isNone then ["path_predicate must be callable"] else [])
    ++ (if s.progress.isNone then ["progress_callback must be callable"] else [])
    ++ (if partitions ≤ 0 then ["partitions must be positive"] else [])
    ++ (match s.maxWorkers with
      | some n => if n ≤ 0 then ["max_workers must be positive"] else []
      | none => [])

def check (s : TraversalSettings σ) : Action σ Unit := do
  let problems ← Action.ofExcept s.problems
  if problems.isEmpty then pure () else .fail (.settings problems)

end TraversalSettings

end VersionedTree
