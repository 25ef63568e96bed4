import VersionedTree.Proofs.Visibility
import VersionedTree.Proofs.Writes

/-! # Snapshots that later writes cannot reach

Documents of a store that was only written by calls are either main documents of absolute paths or
previous ones. A snapshot is behind a writer when the writer's clock has passed all that the
snapshot sees of it; then whatever the writer does next, each node is resolved as before, wherever
there was a document of its own path.
-/

namespace VersionedTree

namespace RevisionVector

/-- The clock of the writer has passed all that the snapshot sees of it. -/
def Behind (v : RevisionVector) (w : Writer) : Prop :=
  ∀ own, v.held? w.cluster = some own → own.timestamp ≤ w.clock

instance (v : RevisionVector) (w : Writer) : Decidable (v.Behind w) :=
  decidable_of_iff (∀ own ∈ v.held? w.cluster, own.timestamp ≤ w.clock) Iff.rfl

theorem sees_of_behind {v : RevisionVector} {w : Writer} (h : v.Behind w) {n : Nat}
    (hn : w.cluster = n) {r : Revision} (hr : r = ⟨w.clock + 1, 0, n⟩) : v.sees r = false := by
  subst hr
  rw [sees]
  cases hget : v.get? n with
  | none => simp
  | some own =>
    have hheld : v.held? w.cluster = some own := by
      rw [held?, hn, if_neg (by omega)]
      exact hget
    have hle := h own hheld
    simp only [decide_eq_false_iff_not, Revision.le_def, not_not, Revision.lt_def]
    omega

theorem held?_update_self (v : RevisionVector) (r : Revision) :
    (v.update r).held? r.cluster = some r := by
  rw [held?, if_neg (by omega), Int.toNat_natCast, get?_update, if_pos rfl]

theorem Behind.mono {v : RevisionVector} {w w' : Writer} (h : v.Behind w)
    (hcluster : w'.cluster = w.cluster) (hclock : w.clock ≤ w'.clock) : v.Behind w' := by
  intro own hown
  rw [hcluster] at hown
  exact Nat.le_trans (h own hown) hclock

end RevisionVector

namespace Document

/-- The main document of an absolute path. -/
structure IsMain (d : Document) : Prop where
  live : d.split = .live
  id_eq : d.id = DocumentId.ofPath d.path
  absolute : Path.isAbsolute d.path = true

/-- A document split off a main one. -/
structure IsSplitOff (d : Document) : Prop where
  split : d.split ≠ .live
  previous : DocumentId.isPrevious d.id = true

theorem IsMain.isSplit {d : Document} (h : d.IsMain) : d.isSplit = false := by
  simp [Document.isSplit, h.live]

theorem IsSplitOff.isSplit {d : Document} (h : d.IsSplitOff) : d.isSplit = true := by
  simp [Document.isSplit, h.split]

theorem IsMain.withCommit {d : Document} (h : d.IsMain) (c : Commit) (m : Option Modified) :
    (d.withCommit c m).IsMain := ⟨h.live, h.id_eq, h.absolute⟩

theorem isMain_forPath {path : String} (h : Path.isAbsolute path = true) :
    (forPath path).IsMain := ⟨rfl, rfl, h⟩

/-- The node that a snapshot finds in a document. -/
def stateAt (d : Document) (v : RevisionVector) : Option NodeState :=
  (d.resolve v).map fun c =>
    { path := d.path, snapshot := some v, lastRevision := some c.revision
      properties := c.properties.getD [], bundled := c.bundled }

theorem stateAt_withCommit_of_unseen {v : RevisionVector} (d : Document) {c : Commit}
    (m : Option Modified) (h : v.sees c.revision = false) :
    (d.withCommit c m).stateAt v = d.stateAt v := by
  rw [stateAt, resolve_withCommit_of_unseen d m h, stateAt, withCommit_path]

theorem stateAt_forPath (path : String) (v : RevisionVector) : (forPath path).stateAt v = none :=
  rfl

end Document

namespace DocumentStore

variable {s s' : DocumentStore} {p : String} {v : RevisionVector}

/-- All documents are main documents of absolute paths or split off such ones. -/
def Arranged (s : DocumentStore) : Prop :=
  ∀ item ∈ s.catalog.items, item.document.IsMain ∨ item.document.IsSplitOff

/-- The path has a main document, which is its own. -/
def Owns (s : DocumentStore) (path : String) : Prop :=
  ∃ d, s.stored? (DocumentId.ofPath path) = some d ∧ d.path = path

theorem Arranged.isMain (h : s.Arranged) (hp : Path.isAbsolute p = true) {d : Document}
    (hd : s.stored? (DocumentId.ofPath p) = some d) : d.IsMain := by
  obtain ⟨item, hitem, hid, rfl⟩ := stored?_eq_some_iff.1 hd
  rcases h item hitem with hmain | hsplit
  · exact hmain
  · have hprevious : DocumentId.isPrevious item.document.id = true := hsplit.previous
    have hid : item.document.id = DocumentId.ofPath p := hid
    rw [hid, DocumentId.isPrevious_ofPath hp] at hprevious
    cases hprevious

theorem Arranged.isMain_of_not_isSplit (h : s.Arranged) {item : Stored}
    (hitem : item ∈ s.catalog.items) (hlive : item.document.isSplit = false) :
    item.document.IsMain := by
  rcases h item hitem with hmain | hsplit
  · exact hmain
  · rw [hsplit.isSplit] at hlive
    cases hlive

theorem owns_of_mem {item : Stored} (h : item ∈ s.catalog.items) (hmain : item.document.IsMain) :
    s.Owns item.document.path := by
  refine ⟨item.document, ?_, rfl⟩
  rw [← hmain.id_eq]
  exact stored?_of_mem h

/-- How the node at a path is resolved from the documents of the store. -/
def nodeAt (s : DocumentStore) (path : String) (v : RevisionVector) :
    Except Failure (Option NodeState) :=
  match s.stored? (DocumentId.ofPath path) with
  | none => .ok none
  | some d =>
    if d.path = path then .ok (d.stateAt v)
    else .error (.unresolvedAt path v (.foreign d.id d.path))

theorem nodeAt_of_stored {d : Document} (h : s.stored? (DocumentId.ofPath p) = some d)
    (hp : d.path = p) : s.nodeAt p v = .ok (d.stateAt v) := by
  rw [nodeAt, h]
  simp only [hp, if_true]

theorem nodeAt_of_none (h : s.stored? (DocumentId.ofPath p) = none) : s.nodeAt p v = .ok none := by
  rw [nodeAt, h]

theorem Agrees.nodeAt (h : s.Agrees s') (p : String) (v : RevisionVector) :
    s'.nodeAt p v = s.nodeAt p v := by
  rw [DocumentStore.nodeAt, DocumentStore.nodeAt, h.stored?]

theorem Agrees.arranged (h : s.Agrees s') (ha : s.Arranged) : s'.Arranged := by
  rw [Arranged, h.catalog]
  exact ha

theorem Agrees.owns (h : s.Agrees s') (ho : s.Owns p) : s'.Owns p := by
  rw [Owns, h.stored?]
  exact ho

theorem arranged_written {d : Document} (ha : s.Arranged) (hd : d.IsMain ∨ d.IsSplitOff) :
    (s.written d).Arranged := by
  intro item hitem
  rcases mem_written.1 hitem with rfl | ⟨hitem, _⟩
  · exact hd
  · exact ha item hitem

end DocumentStore

namespace Repository

variable {r r' : Repository} {p : String} {v : RevisionVector}

theorem ends_node (hs : r.store.Sound) (ha : r.store.available = true) (p : String)
    (v : RevisionVector) : Action.Ends Agrees (node p v) r (r.store.nodeAt p v) := by
  refine (ends_onStore (DocumentStore.ends_find hs ha _)).bind_ok fun r' _ => ?_
  rw [DocumentStore.nodeAt]
  cases hd : r.store.stored? (DocumentId.ofPath p) with
  | none => exact Action.ends_pure (.refl r') _
  | some d =>
    by_cases hpath : d.path = p
    · simp only [hpath, ne_eq, not_true_eq_false, if_false, if_true, Document.stateAt]
      cases d.resolve v <;> exact Action.ends_pure (.refl r') _
    · simp only [hpath, ne_eq, not_false_eq_true, if_true, if_false]
      exact Action.ends_fail (.refl r') _

/-- What writes keep: a sound and available store of main and previous documents. -/
structure Kept (r : Repository) : Prop where
  sound : r.store.Sound
  available : r.store.available = true
  arranged : r.store.Arranged

theorem Agrees.kept (h : r.Agrees r') (hk : r.Kept) : r'.Kept :=
  ⟨h.1.sound hk.sound, h.1.available.trans hk.available, h.1.arranged hk.arranged⟩

theorem kept_create {settings : CacheSettings} {store : DocumentStore}
    (h : DocumentStore.create settings = .ok store) (writer : Writer) :
    Kept ⟨store, writer⟩ ∧ store.catalog = .empty := by
  have hsound := DocumentStore.sound_create h
  cases hp : settings.problems with
  | error e =>
    rw [DocumentStore.create, hp] at h
    cases h
  | ok problems =>
    rw [DocumentStore.create, hp] at h
    simp only [bind, Except.bind] at h
    split at h
    · cases h
      exact ⟨⟨hsound, rfl, fun item hitem => by cases hitem⟩, rfl⟩
    · cases h

theorem isMain_onto (hk : r.store.Arranged) {x : Version} (hx : Path.isAbsolute x.path = true) :
    (x.onto (r.store.stored? x.id)).IsMain := by
  rw [Version.onto]
  cases hd : r.store.stored? x.id with
  | none => exact (Document.isMain_forPath hx).withCommit _ _
  | some d => exact (hk.isMain hx hd).withCommit _ _

theorem onto_id (r : Repository) (x : Version) :
    (x.onto (r.store.stored? x.id)).id = x.id := by
  rw [Version.onto, Document.withCommit_id]
  cases hd : r.store.stored? x.id with
  | none => rfl
  | some d => exact DocumentStore.id_of_stored? hd

theorem stored?_onto (r : Repository) (x : Version) :
    (r.store.written (x.onto (r.store.stored? x.id))).stored? x.id =
      some (x.onto (r.store.stored? x.id)) := by
  have h := DocumentStore.stored?_written_self r.store (x.onto (r.store.stored? x.id))
  rwa [onto_id] at h

theorem path_of_version? {call : WriteCall} {revision : Revision} {x : Version}
    (h : call.version? revision = some x) : x.path = call.path := by
  cases call with
  | commit | remove =>
    cases h
    rfl
  | addPrevious => cases h

theorem Step.sound {call : WriteCall} {result : Except Failure (Option Revision)}
    (h : Step r call result r') (hs : r.store.Sound) : r'.store.Sound := by
  cases h with
  | version => exact DocumentStore.sound_written hs _
  | previous s path height modified split revision hagrees =>
    exact DocumentStore.sound_written (hagrees.sound hs) _
  | refused e s clock hagrees => exact hagrees.sound hs

theorem Step.available {call : WriteCall} {result : Except Failure (Option Revision)}
    (h : Step r call result r') : r'.store.available = r.store.available := by
  cases h with
  | version => rfl
  | previous s path height modified split revision hagrees => exact hagrees.available
  | refused e s clock hagrees => exact hagrees.available

theorem Step.kept {call : WriteCall} {result : Except Failure (Option Revision)}
    (h : Step r call result r') (hk : r.Kept) (hcall : call.Admissible) : r'.Kept := by
  refine ⟨h.sound hk.sound, h.available.trans hk.available, ?_⟩
  cases h with
  | version n x hcluster hrevision hversion ha =>
    have hx : Path.isAbsolute x.path = true := by
      rw [path_of_version? hversion]
      exact hcall.isAbsolute
    exact DocumentStore.arranged_written hk.arranged (.inl (isMain_onto hk.arranged hx))
  | previous s path height modified split revision hs heq =>
    subst heq
    exact DocumentStore.arranged_written (hs.arranged hk.arranged)
      (.inr ⟨hcall.2, DocumentId.isPrevious_previous _ _ _⟩)
  | refused e s clock hs => exact hs.arranged hk.arranged

theorem Step.behind {call : WriteCall} {result : Except Failure (Option Revision)}
    (h : Step r call result r') (hv : v.Behind r.writer) : v.Behind r'.writer := by
  cases h with
  | version => exact hv.mono rfl (Nat.le_succ _)
  | previous => exact hv
  | refused e s clock hs hclock => exact hv.mono rfl hclock

theorem Step.issued {call : WriteCall} {result : Except Failure (Option Revision)}
    (h : Step r call result r') {item : Stored} (hi : r.store.Issued item) :
    r'.store.Issued item := by
  cases h with
  | version => exact DocumentStore.issued_written hi _
  | previous s path height modified split revision hs =>
    exact DocumentStore.issued_written (hs.issued hi) _
  | refused e s clock hs => exact hs.issued hi

/-- A step leaves each path its document, and in it what the snapshot sees. -/
theorem Step.nodeAt {call : WriteCall} {result : Except Failure (Option Revision)}
    (h : Step r call result r') (hv : v.Behind r.writer) (hp : Path.isAbsolute p = true)
    (ho : r.store.Owns p) :
    r'.store.Owns p ∧ r'.store.nodeAt p v = r.store.nodeAt p v := by
  obtain ⟨d, hd, rfl⟩ := ho
  cases h with
  | version n x hcluster hrevision hversion ha =>
    have hunseen : v.sees x.revision = false := RevisionVector.sees_of_behind hv hcluster hrevision
    have hnode : r.store.nodeAt d.path v = .ok (d.stateAt v) :=
      DocumentStore.nodeAt_of_stored hd rfl
    by_cases hid : DocumentId.ofPath d.path = x.id
    · rw [hid] at hd
      have hstored : (r.store.written (x.onto (r.store.stored? x.id))).stored?
          (DocumentId.ofPath d.path) = some (d.withCommit x.commit (some x.modified)) := by
        rw [hid, stored?_onto, hd]
        rfl
      refine ⟨⟨_, hstored, rfl⟩, ?_⟩
      rw [hnode, DocumentStore.nodeAt_of_stored hstored rfl,
        Document.stateAt_withCommit_of_unseen d _ hunseen]
    · have hstored : (r.store.written (x.onto (r.store.stored? x.id))).stored?
          (DocumentId.ofPath d.path) = some d := by
        rw [DocumentStore.stored?_written_of_ne (by rwa [onto_id]), hd]
      exact ⟨⟨d, hstored, rfl⟩, by rw [hnode, DocumentStore.nodeAt_of_stored hstored rfl]⟩
  | previous s path height modified split revision hs =>
    rw [← hs.stored?] at hd
    rw [← hs.nodeAt, DocumentStore.nodeAt_of_stored hd rfl]
    have hne : DocumentId.ofPath d.path ≠ DocumentId.previous path revision height :=
      (DocumentId.previous_ne_ofPath hp revision height).symm
    have hstored := (DocumentStore.stored?_written_of_ne (s := s) (d :=
      { id := DocumentId.previous path revision height
        path, modified, split
        commits := ((r.store.stored? (DocumentId.ofPath path)).map
          Document.commits).getD [] }) hne).trans hd
    exact ⟨⟨d, hstored, rfl⟩, DocumentStore.nodeAt_of_stored hstored rfl⟩
  | refused e s clock hs =>
    exact ⟨hs.owns ⟨d, hd, rfl⟩, hs.nodeAt _ _⟩

end Repository

end VersionedTree
