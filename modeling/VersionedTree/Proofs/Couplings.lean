import VersionedTree.Traversal.Scan

/-! # Two scans side by side

A coupling relates actions on two kinds of workspaces and is kept by sequences. If it relates the
parts that the steps of a scan are made of, for one traverser and another, it relates the steps:
both go through the same documents in the same way.
-/

namespace VersionedTree

/-- A relation of actions, with the rules by which it goes through a sequence. -/
structure Coupling (σ τ : Type) where
  Rel {α : Type} : Action σ α → Action τ α → Prop
  pure {α : Type} (a : α) : Rel (pure a) (pure a)
  fail {α : Type} (e : Failure) : Rel (Action.fail e : Action σ α) (Action.fail e)
  bind {α β : Type} {x' : Action σ α} {x : Action τ α} {f' : α → Action σ β} {f : α → Action τ β} :
    Rel x' x → (∀ a, Rel (f' a) (f a)) → Rel (x' >>= f') (x >>= f)

namespace Coupling

variable {σ τ α : Type} (c : Coupling σ τ) {x' y' : Action σ α} {x y : Action τ α}

theorem ofExcept (r : Except Failure α) : c.Rel (Action.ofExcept r) (Action.ofExcept r) := by
  cases r with
  | ok a => exact c.pure a
  | error e => exact c.fail e

theorem ite {p : Prop} [Decidable p] (hx : c.Rel x' x) (hy : c.Rel y' y) :
    c.Rel (if p then x' else y') (if p then x else y) := by
  split
  · exact hx
  · exact hy

end Coupling

open Workspace

/-- The coupling relates what one traverser does for a scan at a snapshot to what the other does. -/
structure Coupling.Parts {υ' υ : Type} (c : Coupling (Workspace υ') (Workspace υ))
    (t' : Traverser υ') (t : Traverser υ) (v : RevisionVector) : Prop where
  delivery : t'.delivery = t.delivery
  available : c.Rel (onStore DocumentStore.requireAvailable)
    (onStore DocumentStore.requireAvailable)
  remember item : c.Rel (changeStore (·.rememberIfCurrent item))
    (changeStore (·.rememberIfCurrent item))
  count scan f : c.Rel (Action.modify ((t'.filter scan).count f))
    (Action.modify ((t.filter scan).count f))
  complete scan produced : c.Rel (t'.complete scan produced) (t.complete scan produced)
  predicate path : c.Rel (t'.predicate path) (t.predicate path)
  progress id : c.Rel (t'.progress id) (t.progress id)
  node path : c.Rel (t'.backend.node path v) (t.backend.node path v)
  requireOpen number : c.Rel (Workspace.requireOpen number) (Workspace.requireOpen number)
  resumeFetch number : c.Rel (Workspace.resumeFetch number) (Workspace.resumeFetch number)

namespace Coupling.Parts

variable {υ' υ : Type} {c : Coupling (Workspace υ') (Workspace υ)} {t' : Traverser υ'}
  {t : Traverser υ} {v : RevisionVector} {scan : Scan}

theorem accepts (h : c.Parts t' t v) (scan : Scan) (path : String) :
    c.Rel (PathFilter.includeId.accepts (t'.filter scan) path)
      (PathFilter.includeId.accepts (t.filter scan) path) :=
  c.ite (c.pure false) (h.predicate path)

theorem includeId (h : c.Parts t' t v) (scan : Scan) (id : String) :
    c.Rel ((t'.filter scan).includeId id) ((t.filter scan).includeId id) := by
  apply c.bind (h.count scan _)
  intro _
  apply c.bind (h.progress id)
  intro _
  apply c.ite (c.pure true)
  apply c.ite (c.pure true)
  apply c.bind (c.ofExcept _)
  intro path
  apply c.bind (h.accepts scan path)
  intro accepted
  apply c.ite (c.pure true)
  apply c.bind (h.count scan _)
  intro _
  exact c.pure false

theorem includeDocument (h : c.Parts t' t v) (scan : Scan) (d : Document) :
    c.Rel ((t'.filter scan).includeDocument d) ((t.filter scan).includeDocument d) := by
  have hrest (included : Bool) := c.ite (p := included = true) (c.pure true)
    (c.bind (h.count scan fun t => { t with documentsRejected := t.documentsRejected + 1 })
      fun _ => c.pure false)
  apply c.ite (hrest false)
  apply c.ite (hrest false)
  exact c.bind (h.predicate d.path) hrest

theorem unfold_eq (h : c.Parts t' t v) (s : NodeState) : t'.unfold s = t.unfold s := by
  rw [Traverser.unfold, Traverser.unfold, h.delivery]

theorem materialize (h : c.Parts t' t v) (d : Document) :
    c.Rel (t'.materialize d v) (t.materialize d v) := by
  apply c.bind (h.node d.path)
  intro found
  cases found with
  | none => exact c.pure none
  | some s =>
    dsimp only
    rw [h.unfold_eq]
    apply c.ite _ (c.pure none)
    apply c.bind (c.ofExcept _)
    intro more
    exact c.pure _

theorem offer (h : c.Parts t' t v) (scan : Scan) (item : Stored) :
    c.Rel (Workspace.offer (t'.filter scan).includeId item)
      (Workspace.offer (t.filter scan).includeId item) := by
  apply c.bind h.available
  intro _
  apply c.bind (h.includeId scan item.id)
  intro accepted
  apply c.ite _ (c.pure false)
  apply c.bind (h.remember item)
  intro _
  exact c.pure true

theorem visit (h : c.Parts t' t scan.snapshot) (item : Stored) :
    c.Rel (t'.visit scan item) (t.visit scan item) := by
  apply c.bind (h.offer scan item)
  intro accepted
  apply c.ite _ (c.pure _)
  apply c.bind (h.includeDocument scan item.document)
  intro included
  apply c.ite _ (c.pure _)
  apply c.bind (h.materialize item.document)
  intro found
  cases found <;> exact c.pure _

theorem seek (h : c.Parts t' t scan.snapshot) (mayPause : Bool) (items : List Stored) :
    c.Rel (t'.seek mayPause scan items) (t.seek mayPause scan items) := by
  induction items with
  | nil =>
    apply c.bind (h.complete scan _)
    intro _
    exact c.pure _
  | cons item rest ih =>
    apply c.bind (h.visit item)
    intro visited
    cases visited with
    | skipped => exact ih
    | dropped =>
      apply c.bind (h.requireOpen scan.cursor)
      intro _
      exact c.ite (c.pure _) ih
    | found first more => exact c.pure _

/-- A step of a scan is related to the step of the other traverser. -/
theorem advanceScan (h : c.Parts t' t scan.snapshot) (mayPause : Bool) :
    c.Rel (t'.advanceScan mayPause scan) (t.advanceScan mayPause scan) := by
  have hseek := h.seek mayPause scan.remaining
  rw [Traverser.advanceScan, Traverser.advanceScan]
  split
  · exact c.pure _
  · exact c.fail _
  · apply c.ite
    · exact c.bind (h.resumeFetch scan.cursor) fun _ => hseek
    · exact c.bind (h.requireOpen scan.cursor) fun _ => c.ite (c.pure _) hseek

end Coupling.Parts

/-- The coupling relates the steps of one traverser's scans to those of the other's, and the ways in
which scans begin. -/
structure Coupling.Iterates {υ' υ : Type} (c : Coupling (Workspace υ') (Workspace υ))
    (t' : Traverser υ') (t : Traverser υ) : Prop where
  parts v : c.Parts t' t v
  headPauses : t'.backend.headPauses = t.backend.headPauses
  ask ticket : c.Rel (t'.ask ticket) (t.ask ticket)
  openScan v : c.Rel (t'.openScan v) (t.openScan v)
  readHead : c.Rel t'.readHead t.readHead

/-- A step of an iteration is related to the step of the other traverser. -/
theorem Coupling.Iterates.advance {υ' υ : Type} {c : Coupling (Workspace υ') (Workspace υ)}
    {t' : Traverser υ'} {t : Traverser υ} (h : c.Iterates t' t) (mayPause : Bool)
    (it : Iteration) : c.Rel (t'.advance mayPause it) (t.advance mayPause it) := by
  have hscan (scan : Scan) : c.Rel (t'.advanceScan mayPause scan) (t.advanceScan mayPause scan) :=
    (h.parts scan.snapshot).advanceScan mayPause
  have hread := c.bind h.readHead hscan
  cases it with
  | finished => exact c.pure _
  | scanning scan => exact hscan scan
  | reading => exact hread
  | entering ticket =>
    apply c.bind (h.ask ticket)
    intro turn
    cases turn with
    | pinned v => exact c.bind (h.openScan v) hscan
    | wait => exact c.pure _
    | read =>
      dsimp only
      rw [h.headPauses]
      exact c.ite (c.pure _) hread

end VersionedTree
