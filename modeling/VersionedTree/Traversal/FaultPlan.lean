import VersionedTree.Traversal.Traverser

/-!
# Fault plans

A backend of stores that fail as planned: nodes that cannot be resolved or are reported missing,
heads that come late and move before they are read, cursors that fail to close. All else is as in
the stores behind it.
-/

namespace VersionedTree

/-- What goes wrong, and where. -/
structure FaultPlan where
  /-- Paths that cannot be resolved, with the words for it. -/
  unresolved : List (String × String) := []
  /-- Paths whose nodes are reported missing. -/
  absent : List String := []
  closing : Option Failure := none
  deriving Inhabited

namespace FaultPlan

variable {υ : Type}

/-- A cursor whose closing closes the real one and then fails. -/
def faultyCursor (e : Failure) (c : Cursor) : Cursor :=
  { c with description := "faulty", releases := c.releases ++ [⟨.hook, some e⟩] }

def missing (path : String) (snapshot : RevisionVector) : NodeState :=
  { path, snapshot := some snapshot, lastRevision := none, properties := [], present := false }

/-- The backend with the faults of a plan. If heads are to move, `beforeHead` says how. -/
def backend (plan : FaultPlan) (beforeHead : Action (Workspace υ) Unit) (real : Backend υ) :
    Backend υ where
  openCursor range := do
    let (number, stream) ← real.openCursor range
    match plan.closing with
    | some e => Action.modify (Workspace.modifyCursor number (faultyCursor e))
    | none => pure ()
    pure (number, stream)
  head := do
    beforeHead
    real.head
  headPauses := true
  node path snapshot :=
    match plan.unresolved.lookup path with
    | some message => Action.fail (.unresolvedAt path snapshot (.reported message))
    | none =>
      if plan.absent.contains path then pure (some (missing path snapshot))
      else real.node path snapshot

end FaultPlan

end VersionedTree
