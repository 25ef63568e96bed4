import VersionedTree.Repository
import VersionedTree.Proofs.Coherence
import VersionedTree.Proofs.DocumentIds
import VersionedTree.Proofs.Versions

/-! # What a write can do

A call that writes puts a version on top of the main document of its path, or puts down a previous
document, or is refused and leaves all documents as they are. Everything that later modules say of
writes follows from these three cases.
-/

namespace VersionedTree

/-- A call that writes to a repository. -/
inductive WriteCall where
  | commit (path : String) (properties : Properties) (bundled : Bundle)
    (modified : Option Modified)
  | remove (path : String) (modified : Option Modified)
  | addPrevious (path : String) (height : Int) (modified : Option Modified) (split : SplitKind)

/-- A version of a node as it was written, with the modification time put down for it. -/
structure Version where
  path : String
  commit : Commit
  modified : Modified

namespace Version

def id (x : Version) : String := DocumentId.ofPath x.path

def revision (x : Version) : Revision := x.commit.revision

/-- The main document of a path with one more version. -/
def onto (x : Version) (d : Option Document) : Document :=
  (d.getD (.forPath x.path)).withCommit x.commit (some x.modified)

end Version

namespace WriteCall

def path : WriteCall → String
  | commit path .. | remove path .. | addPrevious path .. => path

/-- The version that a call writes at a revision, if it writes one. -/
def version? (revision : Revision) : WriteCall → Option Version
  | commit path properties bundled modified =>
    some ⟨path, ⟨revision, some properties, bundled⟩, modified.getD (.time revision.timestamp)⟩
  | remove path modified =>
    some ⟨path, ⟨revision, none, .empty⟩, modified.getD (.time revision.timestamp)⟩
  | addPrevious .. => none

/-- Does the call write a version? One that puts down a previous document does not. -/
def writes : WriteCall → Bool
  | commit .. | remove .. => true
  | addPrevious .. => false

/-- The version is the one that the call writes at the revision of the version. -/
def Wrote (call : WriteCall) (x : Version) : Prop := call.version? x.revision = some x

/-- Makes the call; answers with the revision of the version that was written, if one was. -/
def perform : WriteCall → Action Repository (Option Revision)
  | commit path properties bundled modified =>
    some <$> Repository.commit path properties bundled modified
  | remove path modified => some <$> Repository.remove path modified
  | addPrevious path height modified split =>
    (fun _ => none) <$> Repository.addPrevious path height modified split

/-- The path is absolute, and a previous document is not put down as a live one. -/
def Admissible : WriteCall → Prop
  | commit path .. | remove path .. => Path.isAbsolute path = true
  | addPrevious path _ _ split => Path.isAbsolute path = true ∧ split ≠ .live

instance (call : WriteCall) : Decidable call.Admissible := by
  cases call <;> rw [Admissible] <;> infer_instance

theorem Admissible.isAbsolute {call : WriteCall} (h : call.Admissible) :
    Path.isAbsolute call.path = true := by
  cases call with
  | commit | remove => exact h
  | addPrevious => exact h.1

end WriteCall

namespace Repository

variable {r r' : Repository} {α : Type}

/-- The repositories differ only in what is cached and counted. -/
def Agrees (r r' : Repository) : Prop := r.store.Agrees r'.store ∧ r'.writer = r.writer

theorem Agrees.refl (r : Repository) : r.Agrees r := ⟨.refl r.store, rfl⟩

instance : Trans Agrees Agrees Agrees := ⟨fun h h' => ⟨h.1.trans h'.1, h'.2.trans h.2⟩⟩

theorem ends_onStore {x : Action DocumentStore α} {result : Except Failure α}
    (h : Action.Ends DocumentStore.Agrees x r.store result) :
    Action.Ends Agrees (onStore x) r result := by
  obtain ⟨s, hx, hs⟩ := h
  refine ⟨{ r with store := s }, ?_, hs, rfl⟩
  rw [onStore, Action.zoom, hx]

/-- What a call does to a repository. -/
inductive Step (r : Repository) (call : WriteCall) :
    Except Failure (Option Revision) → Repository → Prop where
  | version (n : Nat) (x : Version) (hcluster : r.writer.cluster = n)
      (hrevision : x.revision = ⟨r.writer.clock + 1, 0, n⟩)
      (hcall : call.version? x.revision = some x) (havailable : r.store.available = true) :
      Step r call (.ok (some x.revision))
        { store := r.store.written (x.onto (r.store.stored? x.id))
          writer := { r.writer with
            clock := r.writer.clock + 1, head := r.writer.head.update x.revision } }
  | previous (s : DocumentStore) (path : String) (height : Int) (modified : Option Modified)
      (split : SplitKind) (revision : Revision) (hs : r.store.Agrees s)
      (hcall : call = .addPrevious path height modified split) :
      Step r call (.ok none)
        { store := s.written
            { id := DocumentId.previous path revision height
              path, modified, split
              commits := ((r.store.stored? (DocumentId.ofPath path)).map
                Document.commits).getD [] }
          writer := r.writer }
  | refused (e : Failure) (s : DocumentStore) (clock : Nat) (hs : r.store.Agrees s)
      (hclock : r.writer.clock ≤ clock)
      (hcause : r.store.available = false ∨ r.writer.cluster < 0) :
      Step r call (.error e) ⟨s, { r.writer with clock }⟩

theorem nextRevision_of_nat {n : Nat} (h : r.writer.cluster = n) :
    nextRevision r = (.ok ⟨r.writer.clock + 1, 0, n⟩,
      { r with writer := { r.writer with clock := r.writer.clock + 1 } }) := by
  have hints : Revision.ofInts ((r.writer.clock + 1 : Nat) : Int) 0 n =
      .ok ⟨r.writer.clock + 1, 0, n⟩ := by
    rw [Revision.ofInts, if_neg (by omega)]
    rfl
  rw [nextRevision, Action.bind_apply, Action.modify_apply]
  simp only [Action.bind_apply, Action.get_apply, h, hints]
  rfl

theorem nextRevision_of_negative (h : r.writer.cluster < 0) :
    ∃ e, nextRevision r = (.error e,
      { r with writer := { r.writer with clock := r.writer.clock + 1 } }) := by
  refine ⟨.revision (.negativeField (r.writer.clock + 1 : Nat) 0 r.writer.cluster), ?_⟩
  have hints : Revision.ofInts ((r.writer.clock + 1 : Nat) : Int) 0 r.writer.cluster =
      .error (.negativeField (r.writer.clock + 1 : Nat) 0 r.writer.cluster) := by
    rw [Revision.ofInts, if_pos (by omega)]
  rw [nextRevision, Action.bind_apply, Action.modify_apply]
  simp only [Action.bind_apply, Action.get_apply, hints]
  rfl

theorem cluster_nat_or_negative (w : Writer) : (∃ n : Nat, w.cluster = n) ∨ w.cluster < 0 := by
  by_cases h : w.cluster < 0
  · exact .inr h
  · exact .inl ⟨w.cluster.toNat, by omega⟩

/-- The repository after its clock has moved on. -/
def ticked (r : Repository) : Repository :=
  { r with writer := { r.writer with clock := r.writer.clock + 1 } }

section

variable {n : Nat} (path : String) (properties : Option Properties) (bundled : Bundle)
  (modified : Option Modified)

theorem writeVersion_of_available (hn : r.writer.cluster = n) (ha : r.store.available = true) :
    let x : Version := ⟨path, ⟨⟨r.writer.clock + 1, 0, n⟩, properties, bundled⟩,
      modified.getD (.time (r.writer.clock + 1 : Nat))⟩
    writeVersion path properties bundled modified r = (.ok x.revision,
      { store := r.store.written (x.onto (r.store.stored? x.id))
        writer := { r.writer with
          clock := r.writer.clock + 1, head := r.writer.head.update x.revision } }) := by
  rw [writeVersion, Action.bind_apply, nextRevision_of_nat hn]
  simp only [Action.bind_apply, onStore, Action.zoom]
  rw [DocumentStore.update_eq rfl ha]
  rfl

theorem writeVersion_of_unavailable (hn : r.writer.cluster = n) (ha : r.store.available = false) :
    writeVersion path properties bundled modified r = (.error .storeUnavailable, r.ticked) := by
  rw [writeVersion, Action.bind_apply, nextRevision_of_nat hn]
  simp only [Action.bind_apply, onStore, Action.zoom]
  rw [DocumentStore.update_of_unavailable rfl ha]
  rfl

theorem writeVersion_of_negative (hn : r.writer.cluster < 0) :
    ∃ e, writeVersion path properties bundled modified r = (.error e, r.ticked) := by
  obtain ⟨e, he⟩ := nextRevision_of_negative hn
  refine ⟨e, ?_⟩
  rw [writeVersion, Action.bind_apply, he]
  rfl

end

theorem step_writeVersion (r : Repository) {call : WriteCall} {path : String}
    {properties : Option Properties} {bundled : Bundle} {modified : Option Modified}
    (hcall : ∀ revision, call.version? revision =
      some ⟨path, ⟨revision, properties, bundled⟩, modified.getD (.time revision.timestamp)⟩) :
    Step r call (some <$> (writeVersion path properties bundled modified r).1)
      (writeVersion path properties bundled modified r).2 := by
  rcases cluster_nat_or_negative r.writer with ⟨n, hn⟩ | hn
  · cases ha : r.store.available with
    | true =>
      rw [writeVersion_of_available path properties bundled modified hn ha]
      exact .version n _ hn rfl (hcall _) ha
    | false =>
      rw [writeVersion_of_unavailable path properties bundled modified hn ha]
      exact .refused _ r.store _ (.refl _) (Nat.le_succ _) (.inl ha)
  · obtain ⟨e, he⟩ := writeVersion_of_negative path properties bundled modified hn
    rw [he]
    exact .refused e r.store _ (.refl r.store) (Nat.le_succ _) (.inr hn)

/-- The revision that previous documents are put down under: a negative cluster has none. -/
def ownRevision (r : Repository) : Except Failure Revision :=
  match r.head.held? r.writer.cluster with
  | some own => .ok own
  | none => (Revision.ofInts 0 0 r.writer.cluster).mapError .revision

theorem negative_of_ownRevision {e : Failure} (h : ownRevision r = .error e) :
    r.writer.cluster < 0 := by
  rw [ownRevision] at h
  split at h
  · cases h
  · by_contra hn
    rw [Revision.ofInts, if_neg (by omega)] at h
    cases h

theorem addPrevious_eq {s : DocumentStore} {main : Option Document} {path : String}
    (hfind : DocumentStore.find (DocumentId.ofPath path) r.store = (.ok main, s))
    (ha : s.available = true) (height : Int) (modified : Option Modified) (split : SplitKind) :
    addPrevious path height modified split r =
      match ownRevision r with
      | .error e => (.error e, { r with store := s })
      | .ok own =>
        let d : Document :=
          { id := DocumentId.previous path own height
            path, modified, split
            commits := (main.map Document.commits).getD [] }
        (.ok d, { r with store := s.written d }) := by
  have hhead : head { r with store := s } = r.head := rfl
  simp only [addPrevious, Action.bind_apply, onStore, Action.zoom, hfind, Action.get_apply, hhead,
    ownRevision]
  cases r.head.held? r.writer.cluster with
  | some own => simp only [Action.bind_apply, Action.zoom, DocumentStore.write_eq ha,
      Action.pure_apply]
  | none =>
    cases (Revision.ofInts 0 0 r.writer.cluster).mapError Failure.revision with
    | error e => rfl
    | ok own => simp only [Action.ofExcept, Action.bind_apply, Action.zoom,
        DocumentStore.write_eq ha, Action.pure_apply]

theorem step_addPrevious (hs : r.store.Sound) (path : String) (height : Int)
    (modified : Option Modified) (split : SplitKind) :
    Step r (.addPrevious path height modified split)
      ((fun _ => none) <$> (addPrevious path height modified split r).1)
      (addPrevious path height modified split r).2 := by
  cases ha : r.store.available with
  | false =>
    have hfind : DocumentStore.find (DocumentId.ofPath path) r.store =
        (.error .storeUnavailable, r.store) := by
      simp [DocumentStore.find, DocumentStore.requireAvailable, Action.bind_apply, ha]
    have heq : addPrevious path height modified split r = (.error .storeUnavailable, r) := by
      simp only [addPrevious, Action.bind_apply, onStore, Action.zoom, hfind]
    rw [heq]
    exact .refused _ r.store _ (.refl _) (Nat.le_refl _) (.inl ha)
  | true =>
    obtain ⟨s, hfind, hagrees⟩ := DocumentStore.ends_find hs ha (DocumentId.ofPath path)
    rw [addPrevious_eq hfind (hagrees.available.trans ha)]
    cases hown : ownRevision r with
    | ok own => exact .previous s path height modified split own hagrees rfl
    | error e =>
      exact .refused e s r.writer.clock hagrees (Nat.le_refl _)
        (.inr (negative_of_ownRevision hown))

section

variable {P : Repository → Prop}

theorem maintains_addPrevious (hfind : ∀ id, Action.Maintains P (onStore (DocumentStore.find id)))
    (hwrite : ∀ d, Action.Maintains P (onStore (DocumentStore.write d))) (path : String)
    (height : Int) (modified : Option Modified) (split : SplitKind) :
    Action.Maintains P (addPrevious path height modified split) := by
  refine (hfind _).bind fun main => Action.maintains_get.bind fun r => ?_
  have hrest (revision : Revision) : Action.Maintains P (do
      let d : Document :=
        { id := DocumentId.previous path revision height, path, modified, split
          commits := (main.map Document.commits).getD [] }
      onStore (DocumentStore.write d)
      pure d) := (hwrite _).bind fun _ => Action.maintains_pure _
  dsimp only
  cases r.head.held? r.writer.cluster with
  | some own => exact (Action.maintains_pure own).bind hrest
  | none => exact (Action.maintains_ofExcept _).bind hrest

theorem maintains_node (hfind : ∀ id, Action.Maintains P (onStore (DocumentStore.find id)))
    (path : String) (v : RevisionVector) : Action.Maintains P (node path v) := by
  refine (hfind _).bind fun found => ?_
  cases found with
  | none => exact Action.maintains_pure _
  | some d =>
    dsimp only
    split
    · exact Action.maintains_fail _
    · split <;> exact Action.maintains_pure _

end

theorem step_perform (hs : r.store.Sound) (call : WriteCall) :
    Step r call (call.perform r).1 (call.perform r).2 := by
  cases call with
  | commit path properties bundled modified =>
    rw [WriteCall.perform, Action.map_apply]
    exact step_writeVersion r fun _ => rfl
  | remove path modified =>
    rw [WriteCall.perform, Action.map_apply]
    exact step_writeVersion r fun _ => rfl
  | addPrevious path height modified split =>
    rw [WriteCall.perform, Action.map_apply]
    exact step_addPrevious hs path height modified split

end Repository

end VersionedTree
