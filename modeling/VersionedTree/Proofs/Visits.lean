import VersionedTree.Traversal.Scan
import VersionedTree.Proofs.Actions

/-! # What a visit finds

A visit that finds something has come through the document stage of the filter, and has read the
node at the path of the document. These facts hold whatever the caller's functions do, and for
either delivery.
-/

namespace VersionedTree

theorem Repository.path_of_node {path : String} {v : RevisionVector} {r r' : Repository}
    {n : NodeState} (h : node path v r = (.ok (some n), r')) : n.path = path := by
  obtain ⟨found, r₁, -, h⟩ := Action.of_bind_eq_ok h
  cases found with
  | none => cases h
  | some d =>
    dsimp only at h
    by_cases hpath : d.path = path
    · rw [if_neg (not_not_intro hpath)] at h
      cases hresolve : d.resolve v with
      | none =>
        rw [hresolve] at h
        cases h
      | some c =>
        rw [hresolve] at h
        cases h
        rfl
    · rw [if_pos hpath] at h
      cases h

theorem Workspace.path_of_node {υ : Type} {path : String} {v : RevisionVector}
    {w w' : Workspace υ} {n : NodeState} (h : node path v w = (.ok (some n), w')) :
    n.path = path := by
  rw [node, onRepository, Action.zoom] at h
  rcases hnode : Repository.node path v w.repository with ⟨result, r⟩
  rw [hnode] at h
  cases h
  exact Repository.path_of_node hnode

/-- What a look at a document comes upon, before anything is unfolded. -/
inductive Sight where
  | skipped
  | dropped
  | node (n : NodeState)

namespace Traverser

section

variable {υ : Type} (t : Traverser υ)

/-- Looks at the next document of a scan: both stages of the filter, then the node at the
snapshot. -/
def look (scan : Scan) (item : Stored) : Action (Workspace υ) Sight := do
  let filter := t.filter scan
  if ← Workspace.offer filter.includeId item then
    if ← filter.includeDocument item.document then
      match ← t.backend.node item.document.path scan.snapshot with
      | some n => if n.present then pure (.node n) else pure .dropped
      | none => pure .dropped
    else pure .dropped
  else pure .skipped

def unfoldSight : Sight → Except Failure Visit
  | .skipped => .ok .skipped
  | .dropped => .ok .dropped
  | .node n => return .found n (← t.unfold n)

end

variable {υ : Type} {t : Traverser υ} {scan : Scan} {item : Stored} {w w' : Workspace υ}
  {first : NodeState} {more : Expansion}

theorem unfold_documents (ht : t.delivery = .documents) (n : NodeState) :
    t.unfold n = match n.descendants.failure with
      | some e => .error e
      | none => .ok n.descendants := by
  rw [unfold, ht]
  cases n.descendants.failure <;> rfl

theorem of_unfold_eq_ok (h : t.unfold first = .ok more) : more = first.descendants := by
  rw [unfold] at h
  split at h
  · cases h
  · cases h
    rfl

theorem node_of_look {n : NodeState} (h : t.look scan item w = (.ok (.node n), w')) :
    ∃ w₁ w₂, (t.filter scan).includeDocument item.document w₁ = (.ok true, w₂) ∧
      t.backend.node item.document.path scan.snapshot w₂ = (.ok (some n), w') := by
  obtain ⟨accepted, w₁, -, h⟩ := Action.of_bind_eq_ok h
  cases accepted with
  | false => cases h
  | true =>
    obtain ⟨included, w₂, hincluded, h⟩ := Action.of_bind_eq_ok h
    cases included with
    | false => cases h
    | true =>
      obtain ⟨found, w₃, hnode, h⟩ := Action.of_bind_eq_ok h
      cases found with
      | none => cases h
      | some n =>
        dsimp only at h
        cases hpresent : n.present with
        | false =>
          rw [hpresent] at h
          cases h
        | true =>
          rw [hpresent] at h
          cases h
          exact ⟨w₁, w₂, hincluded, hnode⟩

/-- A visit looks at the document and unfolds what it comes upon. -/
theorem visit_eq (t : Traverser υ) (scan : Scan) (item : Stored) :
    t.visit scan item = t.look scan item >>= fun sight =>
      Action.ofExcept (t.unfoldSight sight) := by
  funext w
  simp only [visit, look, Action.bind_apply]
  rcases Workspace.offer (t.filter scan).includeId item w with ⟨e | accepted, w₁⟩
  · rfl
  cases accepted with
  | false => rfl
  | true =>
    simp only [if_true, Action.bind_apply]
    rcases (t.filter scan).includeDocument item.document w₁ with ⟨e | included, w₂⟩
    · rfl
    cases included with
    | false => rfl
    | true =>
      simp only [if_true, Action.bind_apply, materialize]
      rcases t.backend.node item.document.path scan.snapshot w₂ with ⟨e | found, w₃⟩
      · rfl
      cases found with
      | none => rfl
      | some n =>
        dsimp only
        cases n.present with
        | false => rfl
        | true =>
          simp only [if_true, Action.bind_apply, Action.pure_apply, unfoldSight]
          cases t.unfold n <;> rfl

theorem found_of_visit (h : t.visit scan item w = (.ok (.found first more), w')) :
    more = first.descendants ∧ ∃ w₁ w₂ w₃,
      (t.filter scan).includeDocument item.document w₁ = (.ok true, w₂) ∧
      t.backend.node item.document.path scan.snapshot w₂ = (.ok (some first), w₃) := by
  rw [visit_eq] at h
  obtain ⟨sight, w₃, hlook, h⟩ := Action.of_bind_eq_ok h
  obtain ⟨h, rfl⟩ := Action.of_ofExcept_eq_ok h
  cases sight with
  | skipped => cases h
  | dropped => cases h
  | node n =>
    obtain ⟨w₁, w₂, hincluded, hnode⟩ := node_of_look hlook
    rw [unfoldSight] at h
    cases hunfold : t.unfold n with
    | error e =>
      rw [hunfold] at h
      cases h
    | ok below =>
      rw [hunfold] at h
      cases h
      exact ⟨of_unfold_eq_ok hunfold, w₁, w₂, w', hincluded, hnode⟩

theorem fresh_of_openScan {v : RevisionVector} (h : t.openScan v w = (.ok scan, w')) :
    scan.pending = {} ∧ scan.rested = true ∧ scan.hiddenRoots = (t.state w).hiddenRoots := by
  obtain ⟨_, _, hget, h⟩ := Action.of_bind_eq_ok h
  cases hget
  obtain ⟨_, _, -, h⟩ := Action.of_bind_eq_ok h
  obtain ⟨_, _, -, h⟩ := Action.of_bind_eq_ok h
  obtain ⟨_, _, -, h⟩ := Action.of_bind_eq_ok h
  obtain ⟨_, _, -, h⟩ := Action.of_bind_eq_ok h
  cases h
  exact ⟨rfl, rfl, rfl⟩

theorem advanceScan_between {mayPause : Bool} (hpending : scan.pending = {})
    (hrested : scan.rested = false) :
    t.advanceScan mayPause scan = (do
      Workspace.requireOpen scan.cursor
      if mayPause then
        pure (.paused (.scanning { scan with remaining := scan.remaining, rested := true }))
      else t.seek mayPause scan scan.remaining) := by
  rw [advanceScan, hpending, hrested]
  rfl

theorem hiddenRoots_modifyState {f : TraverserState → TraverserState}
    (hf : ∀ s, (f s).hiddenRoots = s.hiddenRoots) (w : Workspace υ) :
    (t.state (t.modifyState f w)).hiddenRoots = (t.state w).hiddenRoots := by
  simp only [state, modifyState, Workspace.traverser, Workspace.modifyTraverser,
    List.getD_eq_getElem?_getD, List.getElem?_modify_eq]
  cases w.traversers[t.number]? with
  | none => rfl
  | some s => exact hf s

end Traverser

end VersionedTree
