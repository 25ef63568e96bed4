import VersionedTree.Action
import VersionedTree.Document

/-!
# Path filters

A filter decides in two stages which documents take part in a traversal: from the id alone, while
the store is scanned, and from the document itself. The first stage lets pass what an id does not
tell; the second one decides on everything.
-/

namespace VersionedTree

structure Tally where
  idsSeen : Nat := 0
  idsRejected : Nat := 0
  documentsRejected : Nat := 0
  deriving DecidableEq, Inhabited

/-- A filter that acts on a state of type `σ`, which holds its tally. -/
structure PathFilter (σ : Type) where
  predicate : String → Action σ Bool := fun _ => pure true
  progress : String → Action σ Unit := fun _ => pure ()
  hiddenRoots : List String := Path.defaultHiddenRoots
  count : (Tally → Tally) → σ → σ

namespace PathFilter

variable {σ : Type}

/-- The stage of ids: reports progress, then accepts or rejects. Ids of long paths and of previous
documents do not tell enough and are accepted. -/
def includeId (f : PathFilter σ) (id : String) : Action σ Bool := do
  Action.modify (f.count fun t => { t with idsSeen := t.idsSeen + 1 })
  f.progress id
  if DocumentId.isHashed id then pure true
  else if DocumentId.isPrevious id then pure true
  else
    let path ← Action.ofExcept ((DocumentId.path id).mapError .documentId)
    if ← accepts path then pure true
    else
      Action.modify (f.count fun t => { t with idsRejected := t.idsRejected + 1 })
      pure false
where
  /-- Is a path neither hidden nor rejected by the predicate? -/
  accepts (path : String) : Action σ Bool :=
    if Path.isHidden path f.hiddenRoots then pure false else f.predicate path

/-- The stage of documents: rejects split documents and excluded paths. -/
def includeDocument (f : PathFilter σ) (d : Document) : Action σ Bool := do
  let included ←
    if d.isSplit then pure false
    else if Path.isHidden d.path f.hiddenRoots then pure false
    else f.predicate d.path
  if included then pure true
  else
    Action.modify (f.count fun t => { t with documentsRejected := t.documentsRejected + 1 })
    pure false

end PathFilter

end VersionedTree
