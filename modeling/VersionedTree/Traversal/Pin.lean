import VersionedTree.Failure

/-!
# Pinned snapshots

The iterations of one traverser share one snapshot. If none was given, the first iteration to
begin reads the head for all of them. Those that begin meanwhile wait in line and are called one
after the other: the next in line reads if the reading failed, and else passes the call on.
-/

namespace VersionedTree

/-- The snapshot that a traverser's iterations share, once it is known. Iterations are numbered. -/
structure Pin where
  snapshot : Option RevisionVector := none
  /-- The iteration whose turn it is: it reads the head, or is to ask again. -/
  called : Option Nat := none
  /-- Has the iteration whose turn it is begun to read, and got no answer yet? -/
  reading : Bool := false
  /-- The iterations that wait, first in line first. -/
  waiting : List Nat := []
  deriving Inhabited

namespace Pin

/-- What an iteration that begins is to do. -/
inductive Turn where
  | pinned (snapshot : RevisionVector)
  | read
  /-- Ask again when it is called. -/
  | wait
  deriving DecidableEq

def of (snapshot : RevisionVector) : Pin := { snapshot := some snapshot }

def callNext (p : Pin) : Pin :=
  { p with called := p.waiting.head?, reading := false, waiting := p.waiting.tail }

def ask (p : Pin) (iteration : Nat) : Turn × Pin :=
  match p.snapshot with
  | some v => (.pinned v, if p.called = some iteration then p.callNext else p)
  | none =>
    match p.called with
    | none => (.read, { p with called := some iteration, reading := true })
    | some called =>
      if called = iteration ∧ !p.reading then (.read, { p with reading := true })
      else (.wait, { p with
        waiting := if p.waiting.contains iteration then p.waiting else p.waiting ++ [iteration] })

/-- The reader got an answer: a head pins the snapshot, and the next in line is called. -/
def answer (p : Pin) (head : Except Failure RevisionVector) : Pin :=
  { p.callNext with
    snapshot := match head with
      | .ok v => some v
      | .error _ => p.snapshot }

end Pin

end VersionedTree
