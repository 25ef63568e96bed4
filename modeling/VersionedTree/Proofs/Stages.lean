import VersionedTree.Proofs.Subjects
import VersionedTree.Proofs.Yields

/-! # The two stages of a filter

The stage of ids tells the path from an ordinary id only. The first character behind the colon of an
id decides whether it does: a path that does not begin with a slash may look like a digest or like
a previous document, and is let pass. Whatever the path, an id that is rejected is that of a
document that would be rejected.
-/

namespace VersionedTree

namespace DocumentId

variable {accepts : String → Bool} {roots : List String}

/-- The id of a main document passes, or its path is allowed or not. -/
theorem idOutcome_ofPath (accepts : String → Bool) (roots : List String) (path : String) :
    Traverser.idOutcome accepts roots (ofPath path) = .ok true ∨
      Traverser.idOutcome accepts roots (ofPath path) =
        .ok (Traverser.allows accepts roots path) := by
  rw [Traverser.idOutcome]
  cases hhashed : isHashed (ofPath path) with
  | true => exact .inl rfl
  | false =>
    cases hprevious : isPrevious (ofPath path) with
    | true => exact .inl rfl
    | false =>
      -- Only the id of a short path looks like neither, and that path stands in it as it is.
      have hbody := body?_of_toList (toList_ofPath path)
      have hshort : Path.isLong path = false := by
        rw [← Bool.not_eq_true]
        intro hlong
        rw [isHashed, marker?, hbody, if_pos hlong] at hhashed
        cases hhashed
      rw [if_neg (by simpa using hshort)] at hbody
      have hpath : DocumentId.path (ofPath path) = .ok path := by
        rw [DocumentId.path, hhashed, hbody]
        exact congrArg Except.ok String.ofList_toList
      rw [hpath]
      exact .inr rfl

theorem idOutcome_previous (accepts : String → Bool) (roots : List String) (path : String)
    (r : Revision) (height : Int) :
    Traverser.idOutcome accepts roots (previous path r height) = .ok true := by
  rw [Traverser.idOutcome, isPrevious_previous, Bool.or_true]
  rfl

end DocumentId

namespace PathFilter

variable {σ : Type} {f : PathFilter σ} {accepts : String → Bool}

/-- With a predicate that only answers, the stage of ids counts, reports, and counts again what it
rejects. -/
theorem includeId_eq (h : f.predicate = fun path => pure (accepts path)) (id : String) :
    f.includeId id = (do
      Action.modify (f.count fun t => { t with idsSeen := t.idsSeen + 1 })
      f.progress id
      if ← Action.ofExcept (Traverser.idOutcome accepts f.hiddenRoots id) then pure true
      else
        Action.modify (f.count fun t => { t with idsRejected := t.idsRejected + 1 })
        pure false) := by
  rw [includeId]
  refine bind_congr fun _ => bind_congr fun _ => ?_
  rw [Traverser.idOutcome]
  cases DocumentId.isHashed id with
  | true => rfl
  | false =>
    cases DocumentId.isPrevious id with
    | true => rfl
    | false =>
      cases (DocumentId.path id).mapError Failure.documentId with
      | error e => rfl
      | ok path =>
        have haccepts : includeId.accepts f path =
            pure (Traverser.allows accepts f.hiddenRoots path) := by
          rw [includeId.accepts, Traverser.allows, h]
          cases Path.isHidden path f.hiddenRoots <;> rfl
        show includeId.accepts f path >>= _ = _
        rw [haccepts]
        rfl

theorem includeDocument_eq (h : f.predicate = fun path => pure (accepts path)) (d : Document) :
    f.includeDocument d = (do
      if !d.isSplit && Traverser.allows accepts f.hiddenRoots d.path then pure true
      else
        Action.modify (f.count fun t => { t with documentsRejected := t.documentsRejected + 1 })
        pure false) := by
  rw [includeDocument, Traverser.allows, h]
  cases d.isSplit with
  | true => rfl
  | false => cases Path.isHidden d.path f.hiddenRoots <;> rfl

/-- Offers a document to both stages, the second one only if the first one lets it pass. -/
def bothStages (f : PathFilter σ) (d : Document) : Action σ Bool := do
  if ← f.includeId d.id then f.includeDocument d else pure false

/-- The stage of ids does not fail and rejects no document that the stage of documents accepts: both
together accept what the latter alone does, the documents that are not split off and whose path is
neither hidden nor rejected. -/
theorem stages_agree (accepts : String → Bool) (report : String → σ → σ) (roots : List String)
    (count : (Tally → Tally) → σ → σ) {d : Document}
    (hid : d.id = DocumentId.ofPath d.path ∨
      ∃ r height, d.id = DocumentId.previous d.path r height) :
    let f : PathFilter σ :=
      { predicate := fun path => pure (accepts path)
        progress := fun id => Action.modify (report id)
        hiddenRoots := roots
        count }
    let included := decide (d.split = .live) && !Path.isHidden d.path roots && accepts d.path
    ∃ passed, (∀ s, (f.includeId d.id s).1 = .ok passed) ∧ (passed = false → included = false) ∧
      (∀ s, (f.includeDocument d s).1 = .ok included) ∧
      ∀ s, (f.bothStages d s).1 = .ok included := by
  intro f included
  have hincluded : included = (!d.isSplit && Traverser.allows accepts roots d.path) := by
    rw [Document.isSplit, Traverser.allows, ← Bool.and_assoc]
    by_cases h : d.split = .live <;> simp [included, h]
  obtain ⟨passed, houtcome, hpassed⟩ : ∃ passed,
      Traverser.idOutcome accepts roots d.id = .ok passed ∧
        (passed = false → included = false) := by
    rcases hid with hid | ⟨r, height, hid⟩
    · rcases DocumentId.idOutcome_ofPath accepts roots d.path with h | h
      · exact ⟨true, hid ▸ h, Bool.noConfusion⟩
      · refine ⟨_, hid ▸ h, fun hrejected => ?_⟩
        rw [hincluded, hrejected, Bool.and_false]
    · exact ⟨true, hid ▸ DocumentId.idOutcome_previous accepts roots d.path r height,
        Bool.noConfusion⟩
  have hids (s : σ) : ∃ s₁, f.includeId d.id s = (.ok passed, s₁) := by
    rw [includeId_eq rfl, houtcome]
    cases passed <;> exact ⟨_, rfl⟩
  have hdocuments (s : σ) : (f.includeDocument d s).1 = .ok included := by
    rw [includeDocument_eq rfl, ← hincluded]
    cases included <;> rfl
  refine ⟨passed, fun s => ?_, hpassed, hdocuments, fun s => ?_⟩
  · obtain ⟨s₁, hs⟩ := hids s
    rw [hs]
  · obtain ⟨s₁, hs⟩ := hids s
    rw [bothStages, Action.bind_apply, hs]
    cases passed with
    | true => exact hdocuments s₁
    | false => rw [hpassed rfl]; rfl

/-- The id of a relative path that begins with an `h` looks as if it held a digest. It passes, and
the hidden path is rejected with the document. -/
theorem stages_agree_on_deceptive_path :
    let d := Document.forPath "hall/:x"
    let f : PathFilter Tally :=
      { predicate := fun path => pure (path.length < 10)
        progress := fun _ => Action.modify id
        hiddenRoots := ["/jcr:system"]
        count := fun g t => g t }
    (f.includeId d.id {}).1 = .ok true ∧ ∀ t, (f.bothStages d t).1 = .ok false := by
  intro d f
  have hid : d.id = DocumentId.ofPath d.path ∨
      ∃ r height, d.id = DocumentId.previous d.path r height := .inl rfl
  obtain ⟨-, -, -, -, hboth⟩ :=
    stages_agree (fun path => path.length < 10) (fun _ => id) ["/jcr:system"] (fun g t => g t) hid
  have hhidden : (decide (d.split = .live) && !Path.isHidden d.path ["/jcr:system"] &&
      decide (d.path.length < 10)) = false := by decide +kernel
  have hlooks : DocumentId.isHashed d.id = true := by decide +kernel
  rw [hhidden] at hboth
  refine ⟨?_, hboth⟩
  rw [includeId_eq rfl, Traverser.idOutcome, hlooks]
  rfl

end PathFilter

end VersionedTree
